import TongjiCode.Tokens.ContiguousTokens

/-!
# What the tokens of a line say of its characters

`colors` lists the metadata of the characters of a line.  As long as the offsets increase, `delete` drops a stretch of this
list, `append` joins two lists and `insert` widens one stretch.
-/

open List

namespace TongjiCode.Tokens

open LineTokens

def Increasing (tokens : List LineToken) : Prop := tokens.Pairwise fun a b => a.endOffset < b.endOffset

/-- The metadata of the characters from `start` on. -/
def colors (start : Nat) : List LineToken → List Nat
  | [] => []
  | token :: tokens => List.replicate (token.endOffset - start) token.metadata ++ colors token.endOffset tokens

def lastEnd (start : Nat) : List LineToken → Nat
  | [] => start
  | token :: tokens => lastEnd token.endOffset tokens

variable {delta : Int}

section Colors

variable {tokens pre post : List LineToken} {token : LineToken} {start : Nat}

theorem lastEnd_append (start : Nat) (a b : List LineToken) : lastEnd start (a ++ b) = lastEnd (lastEnd start a) b := by
  induction a generalizing start with
  | nil => rfl
  | cons token a ih => exact ih token.endOffset

theorem lastEnd_concat (start : Nat) (a : List LineToken) (token : LineToken) :
    lastEnd start (a ++ [token]) = token.endOffset := by
  rw [lastEnd_append]
  rfl

theorem lastEndOffset_eq (hne : tokens ≠ []) (start : Nat) : lastEndOffset tokens = lastEnd start tokens := by
  rcases eq_nil_or_concat tokens with hnil | ⟨front, token, rfl⟩
  · exact absurd hnil hne
  · rw [concat_eq_append, lastEnd_concat]
    unfold lastEndOffset
    rw [getLast?_append_of_ne_nil _ (cons_ne_nil _ _)]
    rfl

theorem colors_append (start : Nat) (a b : List LineToken) :
    colors start (a ++ b) = colors start a ++ colors (lastEnd start a) b := by
  induction a generalizing start with
  | nil => rfl
  | cons token a ih =>
    show List.replicate (token.endOffset - start) token.metadata ++ colors token.endOffset (a ++ b) = _
    rw [ih, ← append_assoc]
    rfl

def StartsAt (start : Nat) (tokens : List LineToken) : Prop := ∀ token ∈ tokens, start ≤ token.endOffset

theorem increasing_cons (h : Increasing (token :: tokens)) : StartsAt token.endOffset tokens ∧ Increasing tokens := by
  obtain ⟨hfirst, hrest⟩ := pairwise_cons.mp h
  exact ⟨fun t ht => Nat.le_of_lt (hfirst t ht), hrest⟩

section

variable (hstart : StartsAt start tokens) (h : Increasing tokens)
include hstart h

theorem length_colors :
    start + (colors start tokens).length = lastEnd start tokens := by
  induction tokens generalizing start with
  | nil => rfl
  | cons token tokens ih =>
    obtain ⟨hfirst, hrest⟩ := increasing_cons h
    have hle := hstart token mem_cons_self
    have hih := ih hfirst hrest
    show start + (List.replicate (token.endOffset - start) token.metadata ++ colors token.endOffset tokens).length =
      lastEnd token.endOffset tokens
    rw [length_append, length_replicate]
    omega

omit hstart h in
theorem startsAt_zero (tokens : List LineToken) : StartsAt 0 tokens := fun _ _ => Nat.zero_le _

omit hstart h in
theorem length_colors_zero (h : Increasing tokens) : (colors 0 tokens).length = lastEnd 0 tokens := by
  have := length_colors (startsAt_zero tokens) h
  omega

theorem le_lastEnd : start ≤ lastEnd start tokens := by
  have := length_colors hstart h
  omega

omit hstart h in
theorem endOffset_le_lastEnd (h : Increasing tokens) (hmem : token ∈ tokens) (start : Nat) :
    token.endOffset ≤ lastEnd start tokens := by
  induction tokens generalizing start with
  | nil => cases hmem
  | cons first tokens ih =>
    obtain ⟨hfirst, hrest⟩ := increasing_cons h
    rcases mem_cons.mp hmem with rfl | hmem
    · exact le_lastEnd hfirst hrest
    · exact ih hrest hmem first.endOffset

omit hstart h in
/-- A token that ends `delta` later. -/
def LineToken.shift (delta : Int) (token : LineToken) : LineToken :=
  { token with endOffset := (token.endOffset + delta).toNat }

theorem colors_shift {start' : Nat} (hshift : (start' : Int) = start + delta) :
    colors start' (tokens.map (LineToken.shift delta)) = colors start tokens := by
  induction tokens generalizing start start' with
  | nil => rfl
  | cons token tokens ih =>
    obtain ⟨hfirst, hrest⟩ := increasing_cons h
    have hle := hstart token mem_cons_self
    have hend : ((token.shift delta).endOffset : Int) = token.endOffset + delta := by
      unfold LineToken.shift
      dsimp only
      omega
    show List.replicate ((token.shift delta).endOffset - start') token.metadata ++ colors (token.shift delta).endOffset _ =
      List.replicate (token.endOffset - start) token.metadata ++ colors token.endOffset tokens
    rw [ih hfirst hrest hend]
    congr 2
    omega

theorem increasing_shift (hdelta : 0 ≤ start + delta) :
    Increasing (tokens.map (LineToken.shift delta)) := by
  unfold Increasing
  rw [pairwise_map]
  refine h.imp_of_mem fun {a b} ha hb hab => ?_
  have := hstart a ha
  unfold LineToken.shift
  dsimp only
  omega

end

end Colors

/-! ## Looking up an offset -/

section Lookup

variable {tokens : List LineToken} {desiredIndex : Nat}

theorem endOffset_eq {i : Nat} (hi : i < tokens.length) : endOffset tokens i = tokens[i].endOffset := by
  unfold LineTokens.endOffset
  rw [getElem?_eq_getElem hi]
  rfl

theorem Increasing.lt (h : Increasing tokens) {i j : Nat} (hij : i < j) (hj : j < tokens.length) :
    endOffset tokens i < endOffset tokens j := by
  rw [endOffset_eq (by omega), endOffset_eq hj]
  exact pairwise_iff_getElem.mp h i j (by omega) hj hij

theorem Increasing.le (h : Increasing tokens) {i j : Nat} (hij : i ≤ j) (hj : j < tokens.length) :
    endOffset tokens i ≤ endOffset tokens j := by
  rcases Nat.lt_or_eq_of_le hij with hlt | rfl
  · exact Nat.le_of_lt (h.lt hlt hj)
  · exact Nat.le_refl _

theorem findIndexLoop_spec (h : Increasing tokens) (low high : Nat) (hle : low ≤ high) (hhigh : high < tokens.length)
    (hbefore : ∀ j, j < low → endOffset tokens j ≤ desiredIndex)
    (hafter : high + 1 = tokens.length ∨ desiredIndex < endOffset tokens high) :
    findIndexLoop tokens desiredIndex low high < tokens.length ∧
      (∀ j, j < findIndexLoop tokens desiredIndex low high → endOffset tokens j ≤ desiredIndex) ∧
      (findIndexLoop tokens desiredIndex low high + 1 = tokens.length ∨
        desiredIndex < endOffset tokens (findIndexLoop tokens desiredIndex low high)) := by
  induction low, high using findIndexLoop.induct tokens desiredIndex with
  | case1 low high hlt mid endOffset' heq =>
    rw [findIndexLoop, dif_pos hlt]
    rw [if_pos heq]
    refine ⟨by omega, fun j hj => ?_, .inr ?_⟩
    · rw [← heq]
      exact h.le (by omega) (by omega)
    · rw [← heq]
      exact h.lt (Nat.lt_succ_self mid) (by omega)
  | case2 low high hlt mid endOffset' hne hless ih =>
    rw [findIndexLoop, dif_pos hlt]
    rw [if_neg hne, if_pos hless]
    refine ih (by omega) hhigh (fun j hj => ?_) hafter
    have := h.le (i := j) (j := mid) (by omega) (by omega)
    omega
  | case3 low high hlt mid endOffset' hne hless ih =>
    rw [findIndexLoop, dif_pos hlt]
    rw [if_neg hne, if_neg hless]
    exact ih (by omega) (by omega) hbefore (.inr (by omega))
  | case4 low high hlt =>
    rw [findIndexLoop, dif_neg hlt]
    have : low = high := by omega
    subst this
    exact ⟨hhigh, hbefore, hafter⟩

/-- The token that is found: those before it end at the offset or before, and it ends after it if it is not the last. -/
theorem findIndex_split (h : Increasing tokens) (hne : tokens ≠ []) (desiredIndex : Nat) :
    ∃ pre token post, tokens = pre ++ token :: post ∧ findIndexInTokensArray tokens desiredIndex = pre.length ∧
      (∀ t ∈ pre, t.endOffset ≤ desiredIndex) ∧ (post = [] ∨ desiredIndex < token.endOffset) := by
  have hpos := length_pos_of_ne_nil hne
  have hspec : findIndexInTokensArray tokens desiredIndex < tokens.length ∧
      (∀ j, j < findIndexInTokensArray tokens desiredIndex → endOffset tokens j ≤ desiredIndex) ∧
      (findIndexInTokensArray tokens desiredIndex + 1 = tokens.length ∨
        desiredIndex < endOffset tokens (findIndexInTokensArray tokens desiredIndex)) := by
    unfold findIndexInTokensArray
    by_cases hone : tokens.length ≤ 1
    · rw [if_pos hone]
      exact ⟨hpos, fun j hj => by omega, .inl (by omega)⟩
    · rw [if_neg hone]
      exact findIndexLoop_spec h 0 (tokens.length - 1) (by omega) (by omega) (fun j hj => by omega) (.inl (by omega))
  obtain ⟨hlt, hbefore, hafter⟩ := hspec
  generalize findIndexInTokensArray tokens desiredIndex = i at hlt hbefore hafter ⊢
  refine ⟨tokens.take i, tokens[i], tokens.drop (i + 1), ?_, ?_, fun t ht => ?_, ?_⟩
  · rw [getElem_cons_drop, take_append_drop]
  · rw [length_take]
    omega
  · obtain ⟨j, hj, rfl⟩ := getElem_of_mem ht
    rw [length_take] at hj
    have := hbefore j (by omega)
    rw [endOffset_eq (by omega)] at this
    rw [getElem_take]
    exact this
  · rw [endOffset_eq hlt] at hafter
    refine hafter.imp_left fun hlast => ?_
    rw [drop_eq_nil_iff]
    omega

end Lookup

/-! ## Editing -/

namespace ContiguousTokensEditing

section Editing

variable {tokens pre post : List LineToken} {token : LineToken}

theorem increasing_append_iff {a b : List LineToken} : Increasing (a ++ b) ↔
    Increasing a ∧ Increasing b ∧ ∀ x ∈ a, ∀ y ∈ b, x.endOffset < y.endOffset := pairwise_append

theorem startsAt_head (h : Increasing (token :: tokens)) : StartsAt token.endOffset (token :: tokens) := by
  intro t ht
  rcases mem_cons.mp ht with rfl | ht
  · exact Nat.le_refl _
  · exact (increasing_cons h).1 t ht

theorem lastEnd_le {bound start : Nat} {pre : List LineToken} (hstart : start ≤ bound)
    (h : ∀ t ∈ pre, t.endOffset ≤ bound) : lastEnd start pre ≤ bound := by
  rcases eq_nil_or_concat pre with rfl | ⟨front, last, rfl⟩
  · exact hstart
  · rw [concat_eq_append] at h ⊢
    rw [lastEnd_concat]
    exact h last (mem_append_right _ mem_cons_self)

/-- With small offsets, storing a shifted offset does not change it. -/
theorem map_toUint32 {f : LineToken → Int} {tokens : List LineToken}
    (h : ∀ t ∈ tokens, f t = t.endOffset + delta ∧ 0 ≤ f t ∧ f t < 2 ^ 32) :
    (tokens.map fun t => { t with endOffset := toUint32 (f t) }) = tokens.map (LineToken.shift delta) := by
  apply map_congr_left
  intro t ht
  obtain ⟨heq, hlow, hhigh⟩ := h t ht
  unfold LineToken.shift toUint32
  congr 1
  omega

theorem deleteLoop_keep {delta lastEnd : Int} (h : Increasing tokens)
    (hend : ∀ t ∈ tokens, lastEnd < (t.endOffset : Int) - delta) :
    deleteLoop delta lastEnd tokens =
      tokens.map fun t => { t with endOffset := toUint32 ((t.endOffset : Int) - delta) } := by
  induction tokens generalizing lastEnd with
  | nil => rfl
  | cons token tokens ih =>
    obtain ⟨hfirst, hrest⟩ := pairwise_cons.mp h
    unfold deleteLoop
    rw [if_pos (hend token mem_cons_self), map_cons]
    congr 1
    apply ih hrest
    intro t ht
    have := hfirst t ht
    omega

theorem deleteLoop_spec {start fromChIndex toChIndex : Nat} (h : Increasing tokens) (hstart : StartsAt start tokens)
    (hfrom : fromChIndex ≤ toChIndex) (hto : start ≤ toChIndex) (hbound : lastEnd start tokens < 2 ^ 32) :
    Increasing (deleteLoop ((toChIndex : Int) - fromChIndex) fromChIndex tokens) ∧
      (∀ t ∈ deleteLoop ((toChIndex : Int) - fromChIndex) fromChIndex tokens, fromChIndex < t.endOffset) ∧
      colors fromChIndex (deleteLoop ((toChIndex : Int) - fromChIndex) fromChIndex tokens) =
        (colors start tokens).drop (toChIndex - start) := by
  induction tokens generalizing start with
  | nil =>
    refine ⟨List.Pairwise.nil, ?_, drop_nil.symm⟩
    intro t ht
    cases ht
  | cons token tokens ih =>
    obtain ⟨hfirst, hrest⟩ := increasing_cons h
    have hle := hstart token mem_cons_self
    by_cases hkeep : toChIndex < token.endOffset
    · have hafter : StartsAt (toChIndex + 1) (token :: tokens) := by
        intro t ht
        rcases mem_cons.mp ht with rfl | ht
        · exact hkeep
        · have := hfirst t ht
          omega
      rw [deleteLoop_keep h fun t ht => by
        have := hafter t ht
        omega]
      have hshift := @map_toUint32 ((fromChIndex : Int) - toChIndex)
        (fun t => (t.endOffset : Int) - ((toChIndex : Int) - fromChIndex)) (token :: tokens) fun t ht => by
          have := hafter t ht
          have := endOffset_le_lastEnd h ht start
          omega
      rw [hshift]
      refine ⟨increasing_shift hafter h (by omega), fun t ht => ?_, ?_⟩
      · obtain ⟨t', ht', rfl⟩ := mem_map.mp ht
        have := hafter t' ht'
        unfold LineToken.shift
        dsimp only
        omega
      · have hafter' : StartsAt toChIndex (token :: tokens) := fun t ht => Nat.le_of_succ_le (hafter t ht)
        rw [colors_shift hafter' h (by omega)]
        show List.replicate (token.endOffset - toChIndex) token.metadata ++ colors token.endOffset tokens =
          (List.replicate (token.endOffset - start) token.metadata ++ colors token.endOffset tokens).drop _
        rw [drop_append_of_le_length (by rw [length_replicate]; omega), drop_replicate]
        congr 2
        omega
    · unfold deleteLoop
      rw [if_neg (by omega)]
      obtain ⟨hincreasing, hafter, hcolors⟩ := ih hrest hfirst (by omega) hbound
      refine ⟨hincreasing, hafter, ?_⟩
      rw [hcolors]
      show _ = (List.replicate (token.endOffset - start) token.metadata ++ colors token.endOffset tokens).drop _
      rw [drop_append, drop_replicate, length_replicate]
      have hzero : token.endOffset - start - (toChIndex - start) = 0 := by omega
      rw [hzero, replicate_zero, nil_append]
      congr 1
      omega

structure Painted (tokens : List LineToken) (expected : List Nat) : Prop where
  ne_nil : tokens ≠ []
  increasing : Increasing tokens
  colors : colors 0 tokens = expected

theorem startOffset_eq (pre rest : List LineToken) :
    (if pre.length > 0 then endOffset (pre ++ rest) (pre.length - 1) else 0) = lastEnd 0 pre := by
  rcases eq_nil_or_concat pre with rfl | ⟨front, last, rfl⟩
  · rfl
  · rw [concat_eq_append, lastEnd_concat, length_append, length_singleton, if_pos (by omega),
      Nat.add_sub_cancel, append_assoc]
    unfold LineTokens.endOffset
    rw [getElem?_append_right (Nat.le_refl _), Nat.sub_self]
    rfl

theorem endOffset_split (pre post : List LineToken) (token : LineToken) :
    endOffset (pre ++ token :: post) pre.length = token.endOffset := by
  unfold LineTokens.endOffset
  rw [getElem?_append_right (Nat.le_refl _), Nat.sub_self]
  rfl

variable {offset : Nat}

theorem take_colors (h : Increasing pre) (hlow : lastEnd 0 pre ≤ offset) (hhigh : offset ≤ token.endOffset) :
    (colors 0 (pre ++ token :: post)).take offset =
      colors 0 pre ++ List.replicate (offset - lastEnd 0 pre) token.metadata := by
  have hlength := length_colors_zero h
  rw [colors_append, take_append, take_of_length_le (by omega), hlength]
  congr 1
  show (List.replicate (token.endOffset - lastEnd 0 pre) token.metadata ++ colors token.endOffset post).take _ = _
  rw [take_append_of_le_length (by rw [length_replicate]; omega), take_replicate]
  congr 1
  omega

theorem drop_colors (h : Increasing pre) (hlow : lastEnd 0 pre ≤ offset) (hend : lastEnd 0 pre ≤ token.endOffset) :
    (colors 0 (pre ++ token :: post)).drop offset =
      List.replicate (token.endOffset - offset) token.metadata ++ (colors token.endOffset post).drop (offset - token.endOffset) := by
  have hlength := length_colors_zero h
  rw [colors_append, drop_append, drop_eq_nil_of_le (by omega), nil_append, hlength]
  show (List.replicate (token.endOffset - lastEnd 0 pre) token.metadata ++ colors token.endOffset post).drop _ = _
  rw [drop_append, drop_replicate, length_replicate]
  have hleft : token.endOffset - lastEnd 0 pre - (offset - lastEnd 0 pre) = token.endOffset - offset := by omega
  have hright : offset - lastEnd 0 pre - (token.endOffset - lastEnd 0 pre) = offset - token.endOffset := by omega
  rw [hleft, hright]

section Split

/-! A deletion that starts in `token`, with `pre` before it and `post` behind it. -/

variable {fromChIndex toChIndex : Nat} (hpre : Increasing pre) (hrest : Increasing (token :: post))
  (hbefore : ∀ t ∈ pre, t.endOffset ≤ fromChIndex) (hlt : fromChIndex < toChIndex)

include hpre hrest hbefore hlt in
theorem painted_inside (hinside : toChIndex < token.endOffset) :
    Painted (pre ++ (token :: post).map (LineToken.shift ((fromChIndex : Int) - toChIndex)))
      (colors 0 pre ++ List.replicate (fromChIndex - lastEnd 0 pre) token.metadata ++
        (List.replicate (token.endOffset - toChIndex) token.metadata ++
          (colors token.endOffset post).drop (toChIndex - token.endOffset))) := by
  have hstart := lastEnd_le (Nat.zero_le fromChIndex) hbefore
  have hafter := startsAt_head hrest
  refine ⟨append_ne_nil_of_right_ne_nil _ (cons_ne_nil _ _), ?_, ?_⟩
  · refine increasing_append_iff.mpr ⟨hpre, increasing_shift hafter hrest (by omega), fun x hx y hy => ?_⟩
    obtain ⟨t, ht, rfl⟩ := mem_map.mp hy
    have := hbefore x hx
    have := hafter t ht
    unfold LineToken.shift
    dsimp only
    omega
  · have hstart' : StartsAt (lastEnd 0 pre + (toChIndex - fromChIndex)) (token :: post) := by
      intro t ht
      have := hafter t ht
      omega
    rw [colors_append, colors_shift hstart' hrest (by omega), append_assoc]
    congr 1
    show List.replicate (token.endOffset - (lastEnd 0 pre + (toChIndex - fromChIndex))) token.metadata ++
      colors token.endOffset post = _
    have hzero : toChIndex - token.endOffset = 0 := by omega
    rw [hzero, drop_zero, ← append_assoc, replicate_append_replicate]
    congr 2
    omega

include hpre hrest hbefore hlt in
theorem painted_across (hacross : token.endOffset ≤ toChIndex) (hbound : lastEnd token.endOffset post < 2 ^ 32) {front : List LineToken}
    (hfront : lastEnd 0 pre ≠ fromChIndex ∧ front = [{ token with endOffset := fromChIndex }] ∨
      lastEnd 0 pre = fromChIndex ∧ front = [])
    (hsome : fromChIndex = 0 → toChIndex < lastEnd token.endOffset post) :
    Painted (pre ++ front ++ deleteLoop ((toChIndex : Int) - fromChIndex) fromChIndex post)
      (colors 0 pre ++ List.replicate (fromChIndex - lastEnd 0 pre) token.metadata ++
        (List.replicate (token.endOffset - toChIndex) token.metadata ++
          (colors token.endOffset post).drop (toChIndex - token.endOffset))) := by
  have hstart := lastEnd_le (Nat.zero_le fromChIndex) hbefore
  obtain ⟨hpostStart, hpost⟩ := increasing_cons hrest
  obtain ⟨hloop, hloopStart, hcolors⟩ := deleteLoop_spec hpost hpostStart (Nat.le_of_lt hlt) hacross hbound
  have hzero : token.endOffset - toChIndex = 0 := by omega
  rw [hzero, replicate_zero, nil_append, ← hcolors]
  rcases hfront with ⟨hat, rfl⟩ | ⟨hat, rfl⟩
  · refine ⟨?_, ?_, ?_⟩
    · exact append_ne_nil_of_left_ne_nil (append_ne_nil_of_right_ne_nil _ (cons_ne_nil _ _)) _
    · rw [append_assoc]
      refine increasing_append_iff.mpr ⟨hpre, pairwise_cons.mpr ⟨hloopStart, hloop⟩, fun x hx y hy => ?_⟩
      have hle := endOffset_le_lastEnd hpre hx 0
      rcases mem_cons.mp hy with rfl | hy
      · show x.endOffset < fromChIndex
        omega
      · have := hloopStart y hy
        omega
    · rw [append_assoc, colors_append, append_assoc]
      rfl
  · rw [hat, Nat.sub_self, replicate_zero, append_nil, append_nil]
    refine ⟨fun hnil => ?_, ?_, ?_⟩
    · -- only a deletion of everything leaves nothing
      obtain ⟨hpreNil, hloopNil⟩ := append_eq_nil_iff.mp hnil
      have hfrom : fromChIndex = 0 := by
        rw [← hat, hpreNil]
        rfl
      have hlength := congrArg List.length hcolors
      rw [hloopNil, length_drop] at hlength
      have htotal := length_colors hpostStart hpost
      have hempty : (colors fromChIndex ([] : List LineToken)).length = 0 := rfl
      omega
    · refine increasing_append_iff.mpr ⟨hpre, hloop, fun x hx y hy => ?_⟩
      have hle := endOffset_le_lastEnd hpre hx 0
      have := hloopStart y hy
      omega
    · rw [colors_append, hat]

end Split

variable {expected : List Nat}

theorem delete_spec {fromChIndex toChIndex : Nat} (h : Painted tokens expected) (hlt : fromChIndex < toChIndex)
    (hto : toChIndex ≤ expected.length) (hbound : expected.length < 2 ^ 32) :
    fromChIndex = 0 ∧ toChIndex = expected.length ∧ delete (.tokens tokens) fromChIndex toChIndex = .emptyLineTokens ∨
      ∃ tokens', delete (.tokens tokens) fromChIndex toChIndex = .tokens tokens' ∧
        Painted tokens' (expected.take fromChIndex ++ expected.drop toChIndex) := by
  obtain ⟨hne, hincreasing, rfl⟩ := h
  rw [length_colors_zero hincreasing] at hto hbound ⊢
  unfold delete
  dsimp only
  rw [if_neg (by omega), lastEndOffset_eq hne 0]
  by_cases hall : fromChIndex = 0 ∧ lastEnd 0 tokens = toChIndex
  · rw [if_pos hall]
    exact .inl ⟨hall.1, hall.2.symm, rfl⟩
  rw [if_neg hall]
  refine .inr ?_
  obtain ⟨pre, token, post, rfl, hindex, hbefore, hpost⟩ := findIndex_split hincreasing hne fromChIndex
  obtain ⟨hpre, hrest, -⟩ := increasing_append_iff.mp hincreasing
  have hstart := lastEnd_le (Nat.zero_le fromChIndex) hbefore
  rw [lastEnd_append] at hto hbound hall
  have hend : fromChIndex < token.endOffset := by
    rcases hpost with rfl | hend
    · exact Nat.lt_of_lt_of_le hlt hto
    · exact hend
  have hdrop : (pre ++ token :: post).drop (pre.length + 1) = post := by
    rw [drop_append, drop_eq_nil_of_le (by omega), nil_append, Nat.add_sub_cancel_left]
    rfl
  rw [hindex, startOffset_eq, endOffset_split, take_left, drop_left, hdrop,
    take_colors hpre hstart (Nat.le_of_lt hend), drop_colors hpre (by omega) (by omega)]
  by_cases hinside : toChIndex < token.endOffset
  · rw [if_pos hinside]
    have hshift := @map_toUint32 ((fromChIndex : Int) - toChIndex)
      (fun t => (t.endOffset : Int) - ((toChIndex : Int) - fromChIndex)) (token :: post) fun t ht => by
        have := startsAt_head hrest t ht
        have := endOffset_le_lastEnd hrest ht (lastEnd 0 pre)
        omega
    rw [hshift]
    exact ⟨_, rfl, painted_inside hpre hrest hbefore hlt hinside⟩
  · rw [if_neg hinside]
    have hsome : fromChIndex = 0 → toChIndex < lastEnd token.endOffset post := fun hzero =>
      Nat.lt_of_le_of_ne hto fun hlast => hall ⟨hzero, hlast.symm⟩
    by_cases hat : lastEnd 0 pre ≠ fromChIndex
    · rw [if_pos hat]
      exact ⟨_, rfl, painted_across hpre hrest hbefore hlt (by omega) hbound (.inl ⟨hat, rfl⟩) hsome⟩
    · rw [if_neg hat]
      rw [Decidable.not_not] at hat
      refine ⟨_, rfl, ?_⟩
      have := painted_across hpre hrest hbefore hlt (by omega) hbound (.inr ⟨hat, rfl⟩) hsome
      rw [append_nil] at this
      rw [hat] at this ⊢
      exact this

theorem append_spec {otherTokens : List LineToken} {expected expected' : List Nat} (h : Painted tokens expected)
    (h' : Painted otherTokens expected') (hfirst : StartsAt 1 otherTokens)
    (hbound : expected.length + expected'.length < 2 ^ 32) :
    ∃ tokens', append (.tokens tokens) (.tokens otherTokens) = .tokens tokens' ∧ Painted tokens' (expected ++ expected') := by
  obtain ⟨hne, hincreasing, rfl⟩ := h
  obtain ⟨-, hincreasing', rfl⟩ := h'
  rw [length_colors_zero hincreasing, length_colors_zero hincreasing'] at hbound
  have hshift := @map_toUint32 (lastEnd 0 tokens : Int) (fun t => ((t.endOffset + lastEnd 0 tokens : Nat) : Int)) otherTokens
    fun t ht => by
      have := endOffset_le_lastEnd hincreasing' ht 0
      omega
  refine ⟨tokens ++ otherTokens.map (LineToken.shift (lastEnd 0 tokens)), ?_, ?_, ?_, ?_⟩
  · rw [← hshift, ← lastEndOffset_eq hne 0]
    rfl
  · exact append_ne_nil_of_left_ne_nil hne _
  · refine increasing_append_iff.mpr ⟨hincreasing, increasing_shift hfirst hincreasing' (by omega), fun x hx y hy => ?_⟩
    obtain ⟨t, ht, rfl⟩ := mem_map.mp hy
    have := hfirst t ht
    have := endOffset_le_lastEnd hincreasing hx 0
    unfold LineToken.shift
    dsimp only
    omega
  · rw [colors_append, colors_shift (startsAt_zero otherTokens) hincreasing' (by omega)]

theorem insert_split (h : Increasing tokens) (hne : tokens ≠ []) {chIndex : Nat} (hle : chIndex ≤ lastEnd 0 tokens) :
    ∃ pre token post, tokens = pre ++ token :: post ∧ lastEnd 0 pre ≤ chIndex ∧ chIndex ≤ token.endOffset ∧
      (if findIndexInTokensArray tokens chIndex > 0 ∧
        endOffset tokens (findIndexInTokensArray tokens chIndex - 1) = chIndex then
        findIndexInTokensArray tokens chIndex - 1 else findIndexInTokensArray tokens chIndex) = pre.length := by
  obtain ⟨pre, token, post, rfl, hindex, hbefore, hpost⟩ := findIndex_split h hne chIndex
  rw [hindex]
  by_cases hat : pre.length > 0 ∧ endOffset (pre ++ token :: post) (pre.length - 1) = chIndex
  · -- the insertion is where the token before it ends
    rw [if_pos hat]
    have hend := startOffset_eq pre (token :: post)
    rw [if_pos hat.1, hat.2] at hend
    rcases eq_nil_or_concat pre with rfl | ⟨front, last, rfl⟩
    · exact absurd hat.1 (Nat.lt_irrefl 0)
    rw [concat_eq_append] at *
    rw [lastEnd_concat] at hend
    refine ⟨front, last, token :: post, by rw [append_assoc]; rfl, ?_, Nat.le_of_eq hend, ?_⟩
    · exact lastEnd_le (Nat.zero_le _) fun t ht => hbefore t (mem_append_left _ ht)
    · rw [length_append, length_singleton, Nat.add_sub_cancel]
  · rw [if_neg hat]
    refine ⟨pre, token, post, rfl, lastEnd_le (Nat.zero_le _) hbefore, ?_, rfl⟩
    rcases hpost with rfl | hend
    · rw [lastEnd_append] at hle
      exact hle
    · omega

theorem insert_spec {chIndex textLength : Nat} (h : Painted tokens expected) (hle : chIndex ≤ expected.length)
    (hbound : expected.length + textLength < 2 ^ 32) :
    ∃ tokens' metadata, insert (.tokens tokens) chIndex textLength = .tokens tokens' ∧
      Painted tokens' (expected.take chIndex ++ List.replicate textLength metadata ++ expected.drop chIndex) := by
  obtain ⟨hne, hincreasing, rfl⟩ := h
  rw [length_colors_zero hincreasing] at hle hbound
  unfold insert
  dsimp only
  obtain ⟨pre, token, post, rfl, hlow, hhigh, hindex⟩ := insert_split hincreasing hne hle
  obtain ⟨hpre, hrest, hbetween⟩ := increasing_append_iff.mp hincreasing
  rw [hindex, take_left, drop_left, take_colors hpre hlow hhigh, drop_colors hpre hlow (by omega)]
  rw [lastEnd_append] at hbound
  have hshift := @map_toUint32 (textLength : Int) (fun t => ((t.endOffset + textLength : Nat) : Int)) (token :: post)
    fun t ht => by
      have := endOffset_le_lastEnd hrest ht (lastEnd 0 pre)
      omega
  rw [hshift]
  refine ⟨_, token.metadata, rfl, append_ne_nil_of_right_ne_nil _ (cons_ne_nil _ _), ?_, ?_⟩
  · refine increasing_append_iff.mpr ⟨hpre, increasing_shift (startsAt_head hrest) hrest (by omega), fun x hx y hy => ?_⟩
    obtain ⟨t, ht, rfl⟩ := mem_map.mp hy
    have := hbetween x hx t ht
    unfold LineToken.shift
    dsimp only
    omega
  · obtain ⟨hpostStart, hpost⟩ := increasing_cons hrest
    rw [colors_append, map_cons]
    show colors 0 pre ++ (List.replicate ((token.shift textLength).endOffset - lastEnd 0 pre) token.metadata ++
      colors (token.shift textLength).endOffset (post.map (LineToken.shift textLength))) = _
    have hend : ((token.shift textLength).endOffset : Int) = token.endOffset + textLength := by
      unfold LineToken.shift
      dsimp only
      omega
    have hzero : chIndex - token.endOffset = 0 := by omega
    rw [colors_shift hpostStart hpost hend, hzero, drop_zero]
    simp only [append_assoc]
    congr 1
    rw [← append_assoc, ← append_assoc, replicate_append_replicate, replicate_append_replicate]
    congr 2
    omega

theorem metadataAt_eq (h : Painted tokens expected) (hlt : offset < expected.length) :
    metadataAt tokens offset = expected[offset]? := by
  obtain ⟨hne, hincreasing, rfl⟩ := h
  rw [length_colors_zero hincreasing] at hlt
  obtain ⟨pre, token, post, rfl, hindex, hbefore, hpost⟩ := findIndex_split hincreasing hne offset
  obtain ⟨hpre, -, -⟩ := increasing_append_iff.mp hincreasing
  have hstart := lastEnd_le (Nat.zero_le offset) hbefore
  have hend : offset < token.endOffset := by
    rcases hpost with rfl | hend
    · rw [lastEnd_append] at hlt
      exact hlt
    · exact hend
  unfold metadataAt
  rw [hindex, getElem?_append_right (Nat.le_refl _), Nat.sub_self, getElem?_cons_zero, ← head?_drop,
    drop_colors hpre hstart (by omega)]
  have hsucc : token.endOffset - offset = token.endOffset - offset - 1 + 1 := by omega
  rw [hsucc, replicate_succ]
  rfl

end Editing

end ContiguousTokensEditing

end TongjiCode.Tokens
