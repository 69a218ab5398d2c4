import TongjiCode.ViewLayout.Picture

/-!
# The sorted array with its prefix sums

The array is sorted by line number; among the whitespaces of one line the ordinals need not be in order, since a
deletion of lines can collapse the places of whitespaces.  The cached sums are right up to the valid index.
-/

open List

namespace TongjiCode.ViewLayout

open LinesLayout

/-- The array is sorted by line number. -/
def Sorted (arr : List EditorWhitespace) : Prop :=
  arr.Pairwise fun a b => a.afterLineNumber ≤ b.afterLineNumber

/-- The cached sums are those of the heights, up to an index. -/
def SumsOk (arr : List EditorWhitespace) (validIndex : Int) : Prop :=
  ∀ i : Nat, (i : Int) ≤ validIndex → i < arr.length →
    prefixSumAt arr i = totalHeight ((zonesOf arr).take (i + 1))

/-! ## Binary searches -/

section Search

variable {arr : List EditorWhitespace}

theorem Sorted.le (h : Sorted arr) {i j : Nat} {a b : EditorWhitespace} (ha : arr[i]? = some a) (hb : arr[j]? = some b)
    (hij : i ≤ j) : a.afterLineNumber ≤ b.afterLineNumber := by
  obtain ⟨hi, rfl⟩ := List.getElem?_eq_some_iff.mp ha
  obtain ⟨hj, rfl⟩ := List.getElem?_eq_some_iff.mp hb
  rcases Nat.lt_or_eq_of_le hij with hlt | rfl
  · exact pairwise_iff_getElem.mp h i j hi hj hlt
  · exact Int.le_refl _

theorem findInsertionLoop_spec (h : Sorted arr) (afterLineNumber ordinal : Int) (low high : Nat)
    (hlow : ∀ i a, i < low → arr[i]? = some a → a.afterLineNumber ≤ afterLineNumber)
    (hhigh : ∀ i a, high ≤ i → arr[i]? = some a → afterLineNumber ≤ a.afterLineNumber) (hle : low ≤ high)
    (hlen : high ≤ arr.length) :
    let index := findInsertionLoop arr afterLineNumber ordinal low high
    index ≤ arr.length ∧ (∀ i a, i < index → arr[i]? = some a → a.afterLineNumber ≤ afterLineNumber) ∧
      ∀ i a, index ≤ i → arr[i]? = some a → afterLineNumber ≤ a.afterLineNumber := by
  induction hn : high - low using Nat.strongRecOn generalizing low high with
  | ind n ih =>
    unfold findInsertionLoop
    by_cases hlt : low < high
    · rw [dif_pos hlt]
      have hmid : (low + high) / 2 < arr.length := by omega
      obtain ⟨whitespace, hget⟩ : ∃ whitespace, arr[(low + high) / 2]? = some whitespace :=
        ⟨_, getElem?_eq_getElem hmid⟩
      dsimp only
      rw [hget]
      dsimp only
      -- below the middle if the whitespace there is not before the line number, else above it
      have hbelow : afterLineNumber ≤ whitespace.afterLineNumber →
          ∀ i a, (low + high) / 2 ≤ i → arr[i]? = some a → afterLineNumber ≤ a.afterLineNumber := by
        intro hle' i a hi ha
        have := h.le hget ha hi
        omega
      have habove : whitespace.afterLineNumber ≤ afterLineNumber →
          ∀ i a, i < (low + high) / 2 + 1 → arr[i]? = some a → a.afterLineNumber ≤ afterLineNumber := by
        intro hle' i a hi ha
        have := h.le ha hget (by omega)
        omega
      split_ifs with heq hord hless
      · exact ih _ (by omega) low _ hlow (hbelow (by omega)) (by omega) (by omega) rfl
      · exact ih _ (by omega) _ high (habove (by omega)) hhigh (by omega) hlen rfl
      · exact ih _ (by omega) low _ hlow (hbelow (by omega)) (by omega) (by omega) rfl
      · exact ih _ (by omega) _ high (habove (by omega)) hhigh (by omega) hlen rfl
    · rw [dif_neg hlt]
      have heq : low = high := by omega
      subst heq
      exact ⟨hlen, hlow, hhigh⟩

theorem findInsertionIndex_spec (h : Sorted arr) (afterLineNumber ordinal : Int) :
    let index := findInsertionIndex arr afterLineNumber ordinal
    index ≤ arr.length ∧ (∀ i a, i < index → arr[i]? = some a → a.afterLineNumber ≤ afterLineNumber) ∧
      ∀ i a, index ≤ i → arr[i]? = some a → afterLineNumber ≤ a.afterLineNumber := by
  apply findInsertionLoop_spec h _ _ _ _ _ _ (Nat.zero_le _) (Nat.le_refl _)
  · intro i a hi
    omega
  · intro i a hi ha
    obtain ⟨hlt, -⟩ := List.getElem?_eq_some_iff.mp ha
    omega

/-- The whitespaces above a line are those up to the one that is found. -/
def IsLastBefore (arr : List EditorWhitespace) (lineNumber : Int) : Option Nat → Prop
  | none => ∀ (i : Nat) (a : EditorWhitespace), arr[i]? = some a → lineNumber ≤ a.afterLineNumber
  | some index => index < arr.length ∧
      (∀ (i : Nat) (a : EditorWhitespace), i ≤ index → arr[i]? = some a → a.afterLineNumber < lineNumber) ∧
      ∀ (i : Nat) (a : EditorWhitespace), index < i → arr[i]? = some a → lineNumber ≤ a.afterLineNumber

theorem findLastLoop_spec (h : Sorted arr) (lineNumber : Int) (low high : Nat)
    (hlow : low = 0 ∨ ∃ a, arr[low]? = some a ∧ a.afterLineNumber < lineNumber)
    (hhigh : ∀ i a, high ≤ i → arr[i]? = some a → lineNumber ≤ a.afterLineNumber) (hlen : high ≤ arr.length) :
    IsLastBefore arr lineNumber (findLastLoop arr lineNumber low high) := by
  induction hn : high - low using Nat.strongRecOn generalizing low high with
  | ind n ih =>
    unfold findLastLoop
    by_cases hlt : low < high
    · rw [dif_pos hlt]
      have hmid : low + (high - 1 - low) / 2 < arr.length := by omega
      obtain ⟨whitespace, hget⟩ : ∃ whitespace, arr[low + (high - 1 - low) / 2]? = some whitespace :=
        ⟨_, getElem?_eq_getElem hmid⟩
      dsimp only
      rw [hget]
      dsimp only
      by_cases hbefore : whitespace.afterLineNumber < lineNumber
      · rw [if_pos hbefore]
        have hall : ∀ i a, i ≤ low + (high - 1 - low) / 2 → arr[i]? = some a → a.afterLineNumber < lineNumber := by
          intro i a hi ha
          have := h.le ha hget hi
          omega
        cases hnext : arr[low + (high - 1 - low) / 2 + 1]? with
        | none =>
          refine ⟨hmid, hall, fun i a hi ha => ?_⟩
          obtain ⟨hlt', -⟩ := List.getElem?_eq_some_iff.mp ha
          have := List.getElem?_eq_none_iff.mp hnext
          omega
        | some next =>
          dsimp only
          by_cases hafter : next.afterLineNumber ≥ lineNumber
          · rw [if_pos hafter]
            refine ⟨hmid, hall, fun i a hi ha => ?_⟩
            have := h.le hnext ha hi
            omega
          · rw [if_neg hafter]
            exact ih _ (by omega) _ high (.inr ⟨next, hnext, by omega⟩) hhigh hlen rfl
      · rw [if_neg hbefore]
        refine ih _ (by omega) low _ hlow (fun i a hi ha => ?_) (by omega) rfl
        have := h.le hget ha hi
        omega
    · rw [dif_neg hlt]
      -- the search can only come to an end below the first whitespace
      rcases hlow with rfl | ⟨a, ha, hless⟩
      · exact fun i a ha => hhigh i a (by omega) ha
      · have := hhigh low a (by omega) ha
        omega

theorem findLast_spec (h : Sorted arr) (lineNumber : Int) :
    IsLastBefore arr lineNumber (findLastLoop arr lineNumber 0 arr.length) := by
  apply findLastLoop_spec h lineNumber 0 arr.length (.inl rfl) _ (Nat.le_refl _)
  intro i a hi ha
  obtain ⟨hlt, -⟩ := List.getElem?_eq_some_iff.mp ha
  omega

end Search

/-! ## Cached sums -/

section Sums

variable {arr arr' : List EditorWhitespace}

theorem zonesOf_append (l r : List EditorWhitespace) : zonesOf (l ++ r) = zonesOf l ++ zonesOf r := map_append

theorem zonesOf_cons (a : EditorWhitespace) (r : List EditorWhitespace) : zonesOf (a :: r) = a.zone :: zonesOf r := rfl

theorem zonesOf_length (arr : List EditorWhitespace) : (zonesOf arr).length = arr.length := length_map _

theorem SumsOk.common {l r r' : List EditorWhitespace} {validIndex : Int} (h : SumsOk (l ++ r) validIndex) :
    SumsOk (l ++ r') (min validIndex (l.length - 1)) := by
  intro i hi hlt
  have hl : i < l.length := by omega
  have hold := h i (by omega) (by rw [length_append]; omega)
  have htake : ∀ r : List EditorWhitespace, (zonesOf (l ++ r)).take (i + 1) = (zonesOf l).take (i + 1) := by
    intro r
    rw [zonesOf_append, take_append_of_le_length]
    rw [zonesOf_length]
    omega
  have hat : ∀ r : List EditorWhitespace, prefixSumAt (l ++ r) i = prefixSumAt l i := by
    intro r
    unfold prefixSumAt
    rw [getElem?_append_left hl]
  rw [htake, hat] at hold ⊢
  exact hold

theorem SumsOk.mono {validIndex validIndex' : Int} (h : SumsOk arr validIndex) (hle : validIndex' ≤ validIndex) :
    SumsOk arr validIndex' := fun i hi hlt => h i (by omega) hlt

variable (sum : EditorWhitespace → Int)

theorem zonesOf_modify (i : Nat) :
    zonesOf (arr.modify i fun a => { a with prefixSum := sum a }) = zonesOf arr := by
  unfold zonesOf
  apply ext_getElem?
  intro j
  rw [getElem?_map, getElem?_map, getElem?_modify]
  cases arr[j]? with
  | none => rfl
  | some a =>
    show some (EditorWhitespace.zone (if i = j then _ else a)) = some a.zone
    split <;> rfl

theorem prefixSumAt_modify_self {i : Nat} {a : EditorWhitespace} (h : arr[i]? = some a) :
    prefixSumAt (arr.modify i fun a => { a with prefixSum := sum a }) i = sum a := by
  unfold prefixSumAt
  rw [getElem?_modify, h]
  show EditorWhitespace.prefixSum (if i = i then _ else a) = sum a
  rw [if_pos rfl]

theorem prefixSumAt_modify_of_ne {i j : Nat} (h : i ≠ j) :
    prefixSumAt (arr.modify i fun a => { a with prefixSum := sum a }) j = prefixSumAt arr j := by
  unfold prefixSumAt
  rw [getElem?_modify]
  cases arr[j]? with
  | none => rfl
  | some a =>
    show EditorWhitespace.prefixSum (if i = j then _ else a) = a.prefixSum
    rw [if_neg h]

theorem totalHeight_take_succ {i : Nat} {a : EditorWhitespace} (h : arr[i]? = some a) :
    totalHeight ((zonesOf arr).take (i + 1)) = totalHeight ((zonesOf arr).take i) + a.height := by
  have hzone : (zonesOf arr)[i]? = some a.zone := by
    unfold zonesOf
    rw [getElem?_map, h]
    rfl
  rw [take_add_one, hzone, totalHeight_append]
  show _ + totalHeight [a.zone] = _
  show _ + (a.height + 0) = _
  omega

theorem SumsOk.extend {i : Nat} {sum : Int} (h : SumsOk arr (i - 1)) (hlt : i < arr.length)
    (hsum : sum = totalHeight ((zonesOf arr).take i)) :
    SumsOk (arr.modify i fun a => { a with prefixSum := sum + a.height }) i := by
  intro j hj hlen
  rw [zonesOf_modify fun a => sum + a.height]
  rw [length_modify] at hlen
  have hget : arr[i]? = some arr[i] := getElem?_eq_getElem hlt
  by_cases hij : i = j
  · subst hij
    rw [prefixSumAt_modify_self (fun a => sum + a.height) hget, totalHeight_take_succ hget, hsum]
  · rw [prefixSumAt_modify_of_ne (fun a => sum + a.height) hij]
    exact h j (by omega) hlen

/-- The loop extends the sums by as many indices as it has turns. -/
theorem sumLoop_spec (count : Nat) : ∀ (arr : List EditorWhitespace) (i : Nat), 1 ≤ i → SumsOk arr (i - 1) →
    i + count ≤ arr.length →
      SumsOk (sumLoop arr i count) (i + count - 1) ∧ zonesOf (sumLoop arr i count) = zonesOf arr := by
  induction count with
  | zero =>
    intro arr i hi h hlen
    exact ⟨h.mono (by omega), rfl⟩
  | succ count ih =>
    intro arr i hi h hlen
    have hsum : prefixSumAt arr (i - 1) = totalHeight ((zonesOf arr).take i) := by
      have := h (i - 1) (by omega) (by omega)
      rw [this]
      congr 2
      omega
    have hextend := h.extend (by omega) hsum
    have ih := ih _ (i + 1) (by omega) (hextend.mono (by omega)) (by rw [length_modify]; omega)
    rw [zonesOf_modify fun a => prefixSumAt arr (i - 1) + a.height] at ih
    exact ⟨ih.1.mono (by omega), ih.2⟩

end Sums

def heightUpTo (zones : List Zone) : Option Nat → Int
  | none => 0
  | some index => totalHeight (zones.take (index + 1))

theorem heightAbove_eq {arr : List EditorWhitespace} {lineNumber : Int} {index : Option Nat}
    (h : IsLastBefore arr lineNumber index) :
    heightAbove (zonesOf arr) lineNumber = heightUpTo (zonesOf arr) index := by
  have hfilter : ∀ l : List EditorWhitespace, ((zonesOf l).filter fun zone => zone.afterLineNumber < lineNumber) =
      zonesOf (l.filter fun a => a.afterLineNumber < lineNumber) := by
    intro l
    unfold zonesOf
    rw [filter_map]
    rfl
  unfold heightAbove
  rw [hfilter]
  cases index with
  | none =>
    have hnil : (arr.filter fun a => a.afterLineNumber < lineNumber) = [] := by
      rw [filter_eq_nil_iff]
      intro a ha
      obtain ⟨i, hi⟩ := mem_iff_getElem?.mp ha
      have := h i a hi
      rw [decide_eq_true_iff]
      omega
    rw [hnil]
    rfl
  | some index =>
    obtain ⟨hlt, hbefore, hafter⟩ := h
    have htake : (arr.filter fun a => a.afterLineNumber < lineNumber) = arr.take (index + 1) := by
      rw [← take_append_drop (index + 1) arr, filter_append, filter_eq_self.mpr,
        filter_eq_nil_iff.mpr, append_nil, take_append_drop]
      · intro a ha
        obtain ⟨i, hi⟩ := mem_iff_getElem?.mp ha
        rw [getElem?_drop] at hi
        have := hafter _ a (by omega) hi
        rw [decide_eq_true_iff]
        omega
      · intro a ha
        obtain ⟨i, hi⟩ := mem_iff_getElem?.mp ha
        rw [getElem?_take] at hi
        split at hi
        · have := hbefore i a (by omega) hi
          rw [decide_eq_true_iff]
          exact this
        · cases hi
    rw [htake]
    unfold heightUpTo zonesOf
    rw [map_take]

end TongjiCode.ViewLayout
