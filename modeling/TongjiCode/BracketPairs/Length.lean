import TongjiCode.Tokens.Lines

/-!
# Packed lengths

`length.ts` of the bracket pair tree: a number of line breaks and a number of columns are packed into one number.  As long as
no count reaches `factor`, lengths add, subtract and compare as the pairs of `LengthObj` do (`lengths_like_pairs`).
-/

open List

namespace TongjiCode.BracketPairs

open Tokens JsString

structure LengthObj where
  lineCount : Nat
  columnCount : Nat
deriving DecidableEq, Repr

def factor : Nat := 2 ^ 26

/-- A `Length` is a number.  The sum of two that fit is below `2 ^ 53`, where doubles are exact. -/
def toLength (lineCount columnCount : Nat) : Nat := lineCount * factor + columnCount

namespace LengthObj

def zero : LengthObj := ⟨0, 0⟩

def isLessThan (a b : LengthObj) : Bool :=
  if a.lineCount ≠ b.lineCount then a.lineCount < b.lineCount else a.columnCount < b.columnCount

def lengthDiffNonNegative (start stop : LengthObj) : LengthObj :=
  if stop.isLessThan start then zero
  else if start.lineCount = stop.lineCount then ⟨0, stop.columnCount - start.columnCount⟩
  else ⟨stop.lineCount - start.lineCount, stop.columnCount⟩

def add (a b : LengthObj) : LengthObj :=
  if b.lineCount = 0 then ⟨a.lineCount, a.columnCount + b.columnCount⟩ else ⟨a.lineCount + b.lineCount, b.columnCount⟩

def toLength (a : LengthObj) : Nat := BracketPairs.toLength a.lineCount a.columnCount

/-- "No overflow": both counts are below the packing limit. -/
def Fits (a : LengthObj) : Prop := a.lineCount < factor ∧ a.columnCount < factor

instance : DecidablePred Fits := fun a => inferInstanceAs (Decidable (a.lineCount < factor ∧ a.columnCount < factor))

end LengthObj

def lengthZero : Nat := 0

def lengthToObj (length : Nat) : LengthObj := ⟨length / factor, length - length / factor * factor⟩

def lengthAdd (l1 l2 : Nat) : Nat := if l2 ≥ factor then l1 + l2 - l1 % factor else l1 + l2

def lengthDiffNonNegative (l1 l2 : Nat) : Nat :=
  if l2 ≤ l1 then lengthZero
  else
    let lineCount1 := l1 / factor
    let lineCount2 := l2 / factor
    let colCount2 := l2 - lineCount2 * factor
    if lineCount1 = lineCount2 then toLength 0 (colCount2 - (l1 - lineCount1 * factor))
    else toLength (lineCount2 - lineCount1) colCount2

def lengthLessThan (l1 l2 : Nat) : Bool := l1 < l2

def lengthLessThanEqual (l1 l2 : Nat) : Bool := l1 ≤ l2

def lengthOfStringObj (str : JsString) : LengthObj := ⟨(splitLines str).length - 1, lastLength (splitLines str)⟩

def lengthOfString (str : JsString) : Nat :=
  toLength ((splitLines str).length - 1) (lastLength (splitLines str))

/-! ## Pairs -/

variable {a b c : LengthObj}

namespace LengthObj

theorem add_assoc (a b c : LengthObj) : (a.add b).add c = a.add (b.add c) := by
  by_cases hc : c.lineCount = 0
  · by_cases hb : b.lineCount = 0
    · simp only [add, hb, hc, if_true, Nat.add_assoc]
    · simp only [add, hb, hc, if_true, if_false]
  · have hbc : b.lineCount + c.lineCount ≠ 0 := by omega
    by_cases hb : b.lineCount = 0
    · simp only [add, hb, hc, if_true, if_false, Nat.zero_add]
    · simp only [add, hb, hc, hbc, if_false, Nat.add_assoc]

@[simp] theorem zero_add (a : LengthObj) : zero.add a = a := by
  obtain ⟨line, column⟩ := a
  by_cases h : line = 0
  · subst h
    simp [add, zero]
  · simp [add, zero, h]

@[simp] theorem add_zero (a : LengthObj) : a.add zero = a := rfl

theorem add_diff (h : b.isLessThan a = false) : a.add (lengthDiffNonNegative a b) = b := by
  obtain ⟨line, column⟩ := a
  obtain ⟨line', column'⟩ := b
  unfold lengthDiffNonNegative
  rw [h, if_neg Bool.false_ne_true]
  simp only [isLessThan] at h
  by_cases hline : line = line'
  · subst hline
    rw [if_neg (by simp), decide_eq_false_iff_not] at h
    rw [if_pos rfl, add, if_pos rfl]
    simp only [mk.injEq, true_and]
    omega
  · rw [if_pos (by simpa using Ne.symm hline), decide_eq_false_iff_not] at h
    rw [if_neg hline, add, if_neg (by dsimp only; omega)]
    simp only [mk.injEq, and_true]
    omega

theorem diff_self (a : LengthObj) : lengthDiffNonNegative a a = zero := by
  simp [lengthDiffNonNegative, isLessThan, zero]

theorem add_left_cancel {x y : LengthObj} (h : a.add x = a.add y) : x = y := by
  obtain ⟨line, column⟩ := x
  obtain ⟨line', column'⟩ := y
  simp only [add] at h
  split at h <;> split at h <;> simp only [mk.injEq] at h ⊢ <;> omega

@[simp] theorem zero_toLength : zero.toLength = lengthZero := by
  simp [zero, toLength, BracketPairs.toLength, lengthZero]

theorem toLength_lineCount (h : a.Fits) : a.toLength / factor = a.lineCount := by
  have hfactor : 0 < factor := by decide
  rw [toLength, BracketPairs.toLength, Nat.mul_comm, Nat.mul_add_div hfactor, Nat.div_eq_of_lt h.2, Nat.add_zero]

theorem toLength_mod (h : a.Fits) : a.toLength % factor = a.columnCount := by
  rw [toLength, BracketPairs.toLength, Nat.mul_comm, Nat.mul_add_mod, Nat.mod_eq_of_lt h.2]

@[simp] theorem lengthToObj_toLength (h : a.Fits) : lengthToObj a.toLength = a := by
  have hsplit : a.toLength = a.lineCount * factor + a.columnCount := rfl
  rw [lengthToObj, toLength_lineCount h, hsplit, Nat.add_sub_cancel_left]

theorem toLength_injective (ha : a.Fits) (hb : b.Fits) (h : a.toLength = b.toLength) : a = b := by
  rw [← lengthToObj_toLength ha, h, lengthToObj_toLength hb]

theorem toLength_lt_factor (h : a.Fits) : a.toLength < factor ↔ a.lineCount = 0 := by
  rw [← toLength_lineCount h, Nat.div_eq_zero_iff]
  have hfactor : factor ≠ 0 := by decide
  exact ⟨Or.inr, fun hor => hor.resolve_left hfactor⟩

theorem toLength_lt_iff (ha : a.Fits) (hb : b.Fits) : a.toLength < b.toLength ↔ a.isLessThan b = true := by
  obtain ⟨line, column⟩ := a
  obtain ⟨line', column'⟩ := b
  have hcolumn : column < factor := ha.2
  have hcolumn' : column' < factor := hb.2
  simp only [toLength, BracketPairs.toLength, isLessThan]
  rcases Nat.lt_trichotomy line line' with hlt | rfl | hlt
  · have hmul := Nat.mul_le_mul_right factor hlt
    rw [Nat.succ_mul] at hmul
    rw [if_pos (by omega)]
    simp only [decide_eq_true_eq]
    omega
  · rw [if_neg (by simp)]
    simp only [decide_eq_true_eq]
    omega
  · have hmul := Nat.mul_le_mul_right factor hlt
    rw [Nat.succ_mul] at hmul
    rw [if_pos (by omega)]
    simp only [decide_eq_true_eq]
    omega

end LengthObj

open LengthObj

/-- The packed sum is the sum of the pairs, even where that does not fit. -/
theorem lengthAdd_toLength (ha : a.Fits) (hb : b.Fits) : lengthAdd a.toLength b.toLength = (a.add b).toLength := by
  have hsplit : a.toLength = a.lineCount * factor + a.columnCount := rfl
  have hsplit' : b.toLength = b.lineCount * factor + b.columnCount := rfl
  by_cases hline : b.lineCount = 0
  · rw [lengthAdd, if_neg (Nat.not_le.mpr ((toLength_lt_factor hb).mpr hline)), add, if_pos hline, hsplit, hsplit', hline]
    simp only [LengthObj.toLength, toLength]
    omega
  · have hge : b.toLength ≥ factor := Nat.le_of_not_lt fun hlt => hline ((toLength_lt_factor hb).mp hlt)
    rw [lengthAdd, if_pos hge, toLength_mod ha, add, if_neg hline, hsplit, hsplit']
    simp only [LengthObj.toLength, toLength, Nat.add_mul]
    omega

theorem lengthDiffNonNegative_toLength (ha : a.Fits) (hb : b.Fits) :
    lengthDiffNonNegative a.toLength b.toLength = (LengthObj.lengthDiffNonNegative a b).toLength := by
  have hcolumn : ∀ d : LengthObj, d.toLength - d.lineCount * factor = d.columnCount :=
    fun d => Nat.add_sub_cancel_left ..
  rcases Nat.lt_trichotomy a.toLength b.toLength with hlt | heq | hlt
  · have hless : b.isLessThan a = false :=
      Bool.eq_false_iff.mpr fun htrue => absurd ((toLength_lt_iff hb ha).mpr htrue) (Nat.lt_asymm hlt)
    simp only [lengthDiffNonNegative, LengthObj.lengthDiffNonNegative]
    rw [if_neg (Nat.not_le.mpr hlt), hless, if_neg Bool.false_ne_true, toLength_lineCount ha, toLength_lineCount hb, hcolumn, hcolumn]
    split <;> rfl
  · have hsame := toLength_injective ha hb heq
    subst hsame
    rw [diff_self, zero_toLength, lengthDiffNonNegative, if_pos (Nat.le_refl _)]
  · have hless := (toLength_lt_iff hb ha).mp hlt
    simp only [lengthDiffNonNegative, LengthObj.lengthDiffNonNegative]
    rw [if_pos (Nat.le_of_lt hlt), hless, if_pos rfl, zero_toLength]

theorem fits_diff (ha : a.Fits) (hb : b.Fits) : (LengthObj.lengthDiffNonNegative a b).Fits := by
  obtain ⟨hline, hcolumn⟩ := ha
  obtain ⟨hline', hcolumn'⟩ := hb
  have hfactor : 0 < factor := by decide
  unfold LengthObj.lengthDiffNonNegative
  split
  · exact ⟨hfactor, hfactor⟩
  · split
    · exact ⟨hfactor, by dsimp only; omega⟩
    · exact ⟨by dsimp only; omega, hcolumn'⟩

/-! ## Strings -/

theorem obj_consHead (ch : UInt16) {lines : List JsString} (hne : lines ≠ []) :
    (⟨(consHead ch lines).length - 1, lastLength (consHead ch lines)⟩ : LengthObj) =
      (⟨0, 1⟩ : LengthObj).add ⟨lines.length - 1, lastLength lines⟩ := by
  have hpos := length_pos_iff.mpr hne
  rw [consHead_length hne, lastLength_consHead hne, add]
  by_cases hone : lines.length = 1
  · rw [if_pos hone, if_pos (by dsimp only; omega), hone, Nat.add_comm 1]
  · rw [if_neg hone, if_neg (by dsimp only; omega), Nat.zero_add]

theorem obj_break {lines : List JsString} (hne : lines ≠ []) :
    (⟨(([] : JsString) :: lines).length - 1, lastLength ([] :: lines)⟩ : LengthObj) =
      (⟨1, 0⟩ : LengthObj).add ⟨lines.length - 1, lastLength lines⟩ := by
  have hpos := length_pos_iff.mpr hne
  rw [lastLength_cons hne, length_cons, add]
  by_cases hone : lines.length = 1
  · rw [if_pos (by dsimp only; omega), hone, Nat.zero_add]
  · rw [if_neg (by dsimp only; omega)]
    simp only [mk.injEq, and_true]
    omega

theorem lengthOfStringObj_other {ch : UInt16} (h : ¬(ch = carriageReturn ∨ ch = lineFeed)) (t : JsString) :
    lengthOfStringObj (ch :: t) = (⟨0, 1⟩ : LengthObj).add (lengthOfStringObj t) := by
  have hsplit : splitLines (ch :: t) = consHead ch (splitLines t) := by
    cases t with
    | nil => simp [splitLines, h, consHead]
    | cons d t => rw [splitLines, if_neg (fun hcrlf => h (.inl hcrlf.1)), if_neg h]
  rw [lengthOfStringObj, hsplit]
  exact obj_consHead ch (splitLines_ne_nil t)

theorem lengthOfStringObj_eol {ch : UInt16} (h : ch = carriageReturn ∨ ch = lineFeed) {t : JsString}
    (h' : ¬(ch = carriageReturn ∧ t.head? = some lineFeed)) :
    lengthOfStringObj (ch :: t) = (⟨1, 0⟩ : LengthObj).add (lengthOfStringObj t) := by
  have hsplit : splitLines (ch :: t) = [] :: splitLines t := by
    cases t with
    | nil => simp [splitLines, h]
    | cons d t => rw [splitLines, if_neg (by simpa using h'), if_pos h]
  rw [lengthOfStringObj, hsplit]
  exact obj_break (splitLines_ne_nil t)

theorem lengthOfStringObj_crlf (t : JsString) :
    lengthOfStringObj (carriageReturn :: lineFeed :: t) = (⟨1, 0⟩ : LengthObj).add (lengthOfStringObj t) := by
  rw [lengthOfStringObj, splitLines, if_pos ⟨rfl, rfl⟩]
  exact obj_break (splitLines_ne_nil t)

/-- The text of two strings one after the other, unless the border is inside a line break. -/
theorem lengthOfStringObj_append (s t : JsString) (h : ¬(s.getLast? = some carriageReturn ∧ t.head? = some lineFeed)) :
    lengthOfStringObj (s ++ t) = (lengthOfStringObj s).add (lengthOfStringObj t) := by
  induction s using eolCount.induct with
  | case1 => exact (LengthObj.zero_add _).symm
  | case2 ch heol =>
    have hborder : ¬(ch = carriageReturn ∧ t.head? = some lineFeed) := by simpa using h
    rw [singleton_append, lengthOfStringObj_eol heol hborder, lengthOfStringObj_eol heol (by simp)]
    rfl
  | case3 ch hother =>
    rw [singleton_append, lengthOfStringObj_other hother, lengthOfStringObj_other hother]
    rfl
  | case4 ch d s hcrlf ih =>
    obtain ⟨rfl, rfl⟩ := hcrlf
    have ih := ih fun hborder => h ⟨by rw [getLast?_cons, getLast?_cons, hborder.1]; rfl, hborder.2⟩
    rw [cons_append, cons_append, lengthOfStringObj_crlf, lengthOfStringObj_crlf, ih, LengthObj.add_assoc]
  | case5 ch d s hcrlf heol ih =>
    rw [getLast?_cons_cons] at h
    rw [cons_append, lengthOfStringObj_eol heol (by simpa using hcrlf), lengthOfStringObj_eol heol (by simpa using hcrlf),
      ih h, LengthObj.add_assoc]
  | case6 ch d s hcrlf hother ih =>
    rw [getLast?_cons_cons] at h
    rw [cons_append, lengthOfStringObj_other hother, lengthOfStringObj_other hother, ih h, LengthObj.add_assoc]

/-- Packed lengths whose counts and sums of counts fit behave as the pairs of line and column count. -/
theorem lengths_like_pairs (a b c : LengthObj) (ha : a.Fits) (hb : b.Fits) (hc : c.Fits) :
    (lengthAdd a.toLength lengthZero = a.toLength ∧ lengthAdd lengthZero a.toLength = a.toLength) ∧
    ((a.add b).Fits → lengthToObj (lengthAdd a.toLength b.toLength) = a.add b) ∧
    ((a.add b).Fits → (b.add c).Fits →
      lengthAdd (lengthAdd a.toLength b.toLength) c.toLength = lengthAdd a.toLength (lengthAdd b.toLength c.toLength)) ∧
    (lengthLessThan a.toLength b.toLength = a.isLessThan b) ∧
    (lengthLessThanEqual a.toLength b.toLength → ∃ d : LengthObj, d.Fits ∧
      lengthDiffNonNegative a.toLength b.toLength = d.toLength ∧ lengthAdd a.toLength d.toLength = b.toLength ∧
      ∀ x : LengthObj, x.Fits → (a.add x).Fits → lengthAdd a.toLength x.toLength = b.toLength → x = d) ∧
    ∀ s t : JsString, ¬(s.getLast? = some carriageReturn ∧ t.head? = some lineFeed) →
      (lengthOfStringObj s).Fits → (lengthOfStringObj t).Fits →
      lengthOfString (s ++ t) = lengthAdd (lengthOfString s) (lengthOfString t) := by
  have hzero : zero.Fits := by decide
  have hsum : ∀ {x y : LengthObj}, x.Fits → y.Fits → lengthAdd x.toLength y.toLength = (x.add y).toLength :=
    fun hx hy => lengthAdd_toLength hx hy
  refine ⟨⟨?_, ?_⟩, ?_, ?_, ?_, ?_, ?_⟩
  · rw [← zero_toLength, hsum ha hzero, LengthObj.add_zero]
  · rw [← zero_toLength, hsum hzero ha, LengthObj.zero_add]
  · intro hab
    rw [hsum ha hb, lengthToObj_toLength hab]
  · intro hab hbc
    rw [hsum ha hb, hsum hb hc, hsum hab hc, hsum ha hbc, LengthObj.add_assoc]
  · rw [Bool.eq_iff_iff, ← toLength_lt_iff ha hb]
    exact decide_eq_true_iff
  · intro hle
    have hless : b.isLessThan a = false :=
      Bool.eq_false_iff.mpr fun htrue => Nat.not_lt.mpr (of_decide_eq_true hle) ((toLength_lt_iff hb ha).mpr htrue)
    refine ⟨_, fits_diff ha hb, lengthDiffNonNegative_toLength ha hb, ?_, ?_⟩
    · rw [hsum ha (fits_diff ha hb), add_diff hless]
    · intro x hx hax heq
      rw [hsum ha hx] at heq
      have hsame := toLength_injective hax hb heq
      exact LengthObj.add_left_cancel (hsame.trans (add_diff hless).symm)
  · intro s t hborder hs ht
    show (lengthOfStringObj (s ++ t)).toLength = lengthAdd (lengthOfStringObj s).toLength (lengthOfStringObj t).toLength
    rw [hsum hs ht, lengthOfStringObj_append s t hborder]

theorem lengths_like_pairs_ten_lines :
    lengthToObj (lengthAdd (toLength 10 5) (toLength 20 3)) = ⟨30, 3⟩ :=
  (lengths_like_pairs ⟨10, 5⟩ ⟨20, 3⟩ zero (by decide) (by decide) (by decide)).2.1 (by decide)

/-- Columns that do not fit run over into the lines: the sum is no longer associative, it no longer counts columns, and what
leads from one length to another is not unique. -/
theorem columns_overflow :
    lengthAdd (lengthAdd (toLength 0 5) (toLength 0 67108863)) (toLength 0 1) ≠
      lengthAdd (toLength 0 5) (lengthAdd (toLength 0 67108863) (toLength 0 1)) ∧
    lengthToObj (lengthAdd (toLength 0 67108863) (toLength 0 1)) ≠ (⟨0, 67108863⟩ : LengthObj).add ⟨0, 1⟩ ∧
    lengthAdd (toLength 0 5) (toLength 0 67108862) = toLength 1 3 ∧
    lengthDiffNonNegative (toLength 0 5) (toLength 1 3) ≠ toLength 0 67108862 := by
  decide

end TongjiCode.BracketPairs
