import Mathlib.Data.List.Chain
import TongjiCode.ViewModel.MonospaceLineBreaksComputer

/-!
# Wrapped lines are well formed

The breaks `createLineBreaks` makes in a well-formed text: where they lie and how wide the lines between them are.

* `turn_wrapping`: what one turn of the loop keeps.
* `createLineBreaks_wellWrapped`: what holds of the breaks that are returned.
-/

open List

namespace TongjiCode.ViewModel.Wrapping

open TongjiCode.Utf16
open TongjiCode.ViewModel.Projections (ModelLineProjectionData)

variable {o : WrappingOptions}

/-! ## Visible columns and characters -/

/-- The visible column behind a text that starts at a column. -/
def columnAfter (o : WrappingOptions) : Nat → JsString → Nat
  | column, [] => column
  | column, [charCode] => column + Breaking.charWidth o charCode column
  | column, charCode :: next :: rest =>
    if isHighSurrogate charCode then columnAfter o (column + Breaking.charWidth o charCode column) rest
    else columnAfter o (column + Breaking.charWidth o charCode column) (next :: rest)

/-- The number of characters, where a surrogate pair is one. -/
def characterCount : JsString → Nat
  | [] => 0
  | [_] => 1
  | charCode :: next :: rest =>
    if isHighSurrogate charCode then characterCount rest + 1 else characterCount (next :: rest) + 1

@[simp] theorem columnAfter_nil (column : Nat) : columnAfter o column [] = column := by
  rw [columnAfter]

@[simp] theorem characterCount_nil : characterCount [] = 0 := by
  rw [characterCount]

def visibleColumnAt (o : WrappingOptions) (text : JsString) (offset : Nat) : Nat := columnAfter o 0 (text.take offset)

/-- The offset falls between the two halves of a surrogate pair. -/
def SplitsPair (text : JsString) (offset : Nat) : Prop :=
  ∃ high low, 0 < offset ∧ text[offset - 1]? = some high ∧ text[offset]? = some low ∧
    isHighSurrogate high = true ∧ isTrail low = true

theorem isHighSurrogate_eq (charCode : UInt16) : isHighSurrogate charCode = isLead charCode := by
  simp only [isHighSurrogate, isLead]
  rw [Bool.eq_iff_iff]
  simp
  omega

theorem columnAfter_pair {high : UInt16} (h : isHighSurrogate high = true) (low : UInt16) (column : Nat) (rest : JsString) :
    columnAfter o column (high :: low :: rest) = columnAfter o (column + Breaking.charWidth o high column) rest := by
  rw [columnAfter, if_pos h]

variable {charCode : UInt16}

theorem columnAfter_cons (h : isHighSurrogate charCode = false) (column : Nat) (rest : JsString) :
    columnAfter o column (charCode :: rest) = columnAfter o (column + Breaking.charWidth o charCode column) rest := by
  cases rest with
  | nil => rw [columnAfter, columnAfter]
  | cons next rest => rw [columnAfter, if_neg (by simp [h])]

/-- A text that starts with a whole number of characters. -/
theorem columnAfter_append : ∀ (column : Nat) {a : JsString}, isWellFormed a = true → ∀ b,
    columnAfter o column (a ++ b) = columnAfter o (columnAfter o column a) b
  | _, [], _, _ => by simp
  | column, [charCode], h, b => by
    have hhigh : isHighSurrogate charCode = false := by
      simp only [isWellFormed, Bool.and_eq_true, Bool.not_eq_true'] at h
      rw [isHighSurrogate_eq]
      exact h.1
    rw [singleton_append, columnAfter_cons hhigh, columnAfter_cons hhigh, columnAfter_nil]
  | column, charCode :: next :: rest, h, b => by
    cases hhigh : isHighSurrogate charCode with
    | true =>
      rw [isWellFormed_pair (by rw [← isHighSurrogate_eq, hhigh])] at h
      rw [cons_append, cons_append, columnAfter_pair hhigh, columnAfter_pair hhigh]
      exact columnAfter_append _ (Bool.and_eq_true_iff.mp h).2 b
    | false =>
      rw [isWellFormed_cons (by rw [← isHighSurrogate_eq, hhigh])] at h
      rw [cons_append, columnAfter_cons hhigh, columnAfter_cons hhigh]
      exact columnAfter_append _ (Bool.and_eq_true_iff.mp h).2 b

theorem isWellFormed_append : ∀ {a : JsString}, isWellFormed a = true → ∀ b,
    isWellFormed (a ++ b) = isWellFormed b
  | [], _, _ => rfl
  | [charCode], h, b => by
    simp only [isWellFormed, Bool.and_eq_true, Bool.not_eq_true'] at h
    rw [singleton_append, isWellFormed_cons h.1, h.2]
    rfl
  | charCode :: next :: rest, h, b => by
    cases hlead : isLead charCode with
    | true =>
      rw [isWellFormed_pair hlead, Bool.and_eq_true] at h
      rw [cons_append, cons_append, isWellFormed_pair hlead, h.1, Bool.true_and]
      exact isWellFormed_append h.2 b
    | false =>
      rw [isWellFormed_cons hlead, Bool.and_eq_true] at h
      rw [cons_append, isWellFormed_cons hlead, h.1, Bool.true_and]
      exact isWellFormed_append h.2 b

variable {text : JsString} {offset : Nat}

theorem isWellFormed_drop (htext : isWellFormed text = true) (h : isWellFormed (text.take offset) = true) :
    isWellFormed (text.drop offset) = true := by
  rw [← isWellFormed_append h, take_append_drop, htext]

theorem characterCount_le_one (h : text.length ≤ 1) : characterCount text ≤ 1 := by
  match text, h with
  | [], _ => simp
  | [_], _ => simp [characterCount]

/-- A high surrogate is neither a tab, a full width nor a control character. -/
theorem computeCharWidth_high {high : UInt16} (h : isHighSurrogate high = true) : computeCharWidth o high 0 = 1 := by
  rw [isHighSurrogate, Bool.and_eq_true, decide_eq_true_eq, decide_eq_true_eq] at h
  have htab : high ≠ 9 := by
    rintro rfl
    exact absurd h.1 (by decide)
  have hwide : isFullWidthCharacter high = false := by
    simp [isFullWidthCharacter]
    omega
  have hcontrol : ¬ high < 32 := by
    show ¬ high.toNat < 32
    omega
  rw [computeCharWidth, if_neg htab, hwide, if_neg (by decide), if_neg hcontrol]

theorem not_splitsPair (htext : isWellFormed text = true) (h : isWellFormed (text.take offset) = true) :
    ¬ SplitsPair text offset := by
  rintro ⟨high, low, -, -, hlow, -, htrail⟩
  have hrest := isWellFormed_drop htext h
  have hdrop : text.drop offset = low :: text.drop (offset + 1) := by
    obtain ⟨hlt, hget⟩ := List.getElem?_eq_some_iff.mp hlow
    rw [List.drop_eq_getElem_cons hlt, hget]
  have hlead : isLead low = false := by
    cases hl : isLead low with
    | true => exact absurd (isTrail_of_isLead hl) (by simp [htrail])
    | false => rfl
  rw [hdrop, isWellFormed_cons hlead, htrail] at hrest
  exact absurd hrest (by simp)

/-! ## One character of the text -/

/-- A character of `length` code units starts at the offset with this one. -/
structure CharacterAt (o : WrappingOptions) (text : JsString) (offset length : Nat) (charCode : UInt16) : Prop where
  positive : 0 < length
  before : isWellFormed (text.take offset) = true
  whole : isWellFormed (text.take (offset + length)) = true
  single : characterCount (text.substring offset (offset + length)) = 1
  column : visibleColumnAt o text (offset + length) =
    visibleColumnAt o text offset + Breaking.charWidth o charCode (visibleColumnAt o text offset)

variable {length : Nat}

section

variable (hbefore : isWellFormed (text.take offset) = true)
include hbefore

/-- The code units that follow an offset behind whole characters make up a character. -/
theorem characterAt_of_take (hpositive : 0 < length) (hwhole : isWellFormed ((text.drop offset).take length) = true)
    (hsingle : characterCount ((text.drop offset).take length) = 1)
    (hcolumn : ∀ column, columnAfter o column ((text.drop offset).take length) = column + Breaking.charWidth o charCode column) :
    CharacterAt o text offset length charCode where
  positive := hpositive
  before := hbefore
  whole := by rw [take_add, isWellFormed_append hbefore, hwhole]
  single := by rw [JsString.substring, drop_take, Nat.add_sub_cancel_left, hsingle]
  column := by rw [visibleColumnAt, take_add, columnAfter_append 0 hbefore, hcolumn, ← visibleColumnAt]

theorem characterAt_pair {high low : UInt16} {rest : JsString} (hdrop : text.drop offset = high :: low :: rest)
    (hhigh : isHighSurrogate high = true) (hlow : isTrail low = true) :
    CharacterAt o text offset 2 high := by
  have htake : (text.drop offset).take 2 = [high, low] := by rw [hdrop]; rfl
  apply characterAt_of_take hbefore (by omega)
  · rw [htake, isWellFormed_pair (by rw [← isHighSurrogate_eq, hhigh]), hlow]
    rfl
  · rw [htake, characterCount, if_pos hhigh, characterCount_nil]
  · intro column
    rw [htake, columnAfter_pair hhigh, columnAfter_nil]

theorem characterAt_unit {rest : JsString} (hdrop : text.drop offset = charCode :: rest)
    (hhigh : isHighSurrogate charCode = false) (hlow : isTrail charCode = false) :
    CharacterAt o text offset 1 charCode := by
  have htake : (text.drop offset).take 1 = [charCode] := by rw [hdrop]; rfl
  apply characterAt_of_take hbefore (by omega)
  · rw [htake, isWellFormed_cons (by rw [← isHighSurrogate_eq, hhigh]), hlow]
    rfl
  · rw [htake, characterCount]
  · intro column
    rw [htake, columnAfter_cons hhigh, columnAfter_nil]

end

/-! ## Lines -/

/-- The text from `start` to `stop` makes a line: it ends between characters, and if there is more than one character in it, it is
no wider than the column that is available, which depends on whether it is the first line. -/
structure Line (o : WrappingOptions) (text : JsString) (firstLineBreakColumn wrappedLineBreakColumn : Int) (start stop : Nat) :
    Prop where
  lt : start < stop
  whole : isWellFormed (text.take stop) = true
  fits : 1 < characterCount (text.substring start stop) →
    (visibleColumnAt o text stop - visibleColumnAt o text start : Int) ≤
      if start = 0 then firstLineBreakColumn else wrappedLineBreakColumn

section

variable {text : JsString} {firstLineBreakColumn wrappedLineBreakColumn : Int}

theorem CharacterAt.line (h : CharacterAt o text offset length charCode) :
    Line o text firstLineBreakColumn wrappedLineBreakColumn offset (offset + length) where
  lt := by have := h.positive; omega
  whole := h.whole
  fits := by rw [h.single]; omega

def Breaking.lastBreak (breaking : Breaking) : Nat := breaking.breakingOffsets.getLastD 0

/-- What holds of the variables of the loop once it has come to an offset. -/
structure Breaking.WrappedTo (o : WrappingOptions) (text : JsString) (firstLineBreakColumn wrappedLineBreakColumn : Int)
    (breaking : Breaking) (offset : Nat) : Prop where
  visibleColumn : breaking.visibleColumn = visibleColumnAt o text offset
  columns : breaking.breakingOffsetsVisibleColumn = breaking.breakingOffsets.map (visibleColumnAt o text)
  lines : (0 :: breaking.breakingOffsets).IsChain (Line o text firstLineBreakColumn wrappedLineBreakColumn)
  here : Line o text firstLineBreakColumn wrappedLineBreakColumn breaking.lastBreak offset
  breakingColumn : breaking.breakingColumn = visibleColumnAt o text breaking.lastBreak +
    if breaking.lastBreak = 0 then firstLineBreakColumn else wrappedLineBreakColumn
  remembered : breaking.breakOffset ≠ 0 →
    Line o text firstLineBreakColumn wrappedLineBreakColumn breaking.lastBreak breaking.breakOffset ∧
      breaking.breakOffset ≤ offset ∧ breaking.breakOffsetVisibleColumn = visibleColumnAt o text breaking.breakOffset

namespace Breaking

variable {breaking : Breaking}

theorem remember_wrappedTo (h : breaking.WrappedTo o text firstLineBreakColumn wrappedLineBreakColumn offset)
    (charCode : UInt16) :
    (breaking.remember o offset charCode).WrappedTo o text firstLineBreakColumn wrappedLineBreakColumn offset := by
  unfold remember
  split
  · exact { h with remembered := fun _ => ⟨h.here, le_rfl, h.visibleColumn⟩ }
  · exact h

theorem lastBreak_breakLine (breaking : Breaking) :
    (breaking.breakLine wrappedLineBreakColumn).lastBreak = breaking.breakOffset := by
  simp [lastBreak, breakLine]

/-- A break at the end of a line, before a character that makes a line with what follows the break. -/
theorem breakLine_wrappedTo (hcolumn : breaking.visibleColumn = visibleColumnAt o text offset)
    (hcolumns : breaking.breakingOffsetsVisibleColumn = breaking.breakingOffsets.map (visibleColumnAt o text))
    (hlines : (0 :: breaking.breakingOffsets).IsChain (Line o text firstLineBreakColumn wrappedLineBreakColumn))
    (hline : Line o text firstLineBreakColumn wrappedLineBreakColumn breaking.lastBreak breaking.breakOffset)
    (hbreak : breaking.breakOffsetVisibleColumn = visibleColumnAt o text breaking.breakOffset)
    (hnext : Line o text firstLineBreakColumn wrappedLineBreakColumn breaking.breakOffset offset) :
    (breaking.breakLine wrappedLineBreakColumn).WrappedTo o text firstLineBreakColumn wrappedLineBreakColumn offset where
  visibleColumn := hcolumn
  columns := by simp [breakLine, hcolumns, hbreak]
  lines := by
    apply hlines.append (isChain_singleton _)
    intro start hstart stop hstop
    rw [getLast?_cons, ← getLastD_eq_getLast?, Option.mem_some_iff] at hstart
    rw [head?_cons, Option.mem_some_iff] at hstop
    rw [← hstart, ← hstop]
    exact hline
  here := by
    rw [lastBreak_breakLine]
    exact hnext
  breakingColumn := by
    have hpositive : breaking.breakOffset ≠ 0 := by have := hline.lt; omega
    rw [lastBreak_breakLine, if_neg hpositive, ← hbreak]
    rfl
  remembered := fun h => absurd rfl h

section

variable (h : breaking.WrappedTo o text firstLineBreakColumn wrappedLineBreakColumn offset)
variable (hchar : CharacterAt o text offset length charCode)
include h hchar

theorem add_wrappedTo :
    (breaking.add wrappedLineBreakColumn offset (charWidth o charCode (visibleColumnAt o text offset))).WrappedTo o text
      firstLineBreakColumn wrappedLineBreakColumn (offset + length) := by
  have hcolumn : breaking.visibleColumn + charWidth o charCode (visibleColumnAt o text offset) =
      visibleColumnAt o text (offset + length) := by
    rw [h.visibleColumn, hchar.column]
  have hlength := hchar.positive
  unfold add
  simp only [hcolumn]
  split
  · split
    · -- the break is before the character, which alone makes a line
      apply breakLine_wrappedTo
      · rfl
      · exact h.columns
      · exact h.lines
      · exact h.here
      · show visibleColumnAt o text (offset + length) - charWidth o charCode (visibleColumnAt o text offset) = _
        rw [hchar.column, Nat.add_sub_cancel]
      · exact hchar.line
    · next hbreak =>
      -- the break is at the remembered offset, and what follows it fits
      obtain ⟨hbreak, hfits⟩ := not_or.mp hbreak
      obtain ⟨hline, hle, hat⟩ := h.remembered hbreak
      apply breakLine_wrappedTo
      · rfl
      · exact h.columns
      · exact h.lines
      · exact hline
      · exact hat
      · refine ⟨by show breaking.breakOffset < _; omega, hchar.whole, fun _ => ?_⟩
        show _ ≤ if breaking.breakOffset = 0 then _ else _
        rw [if_neg hbreak, ← hat]
        omega
  · next hover =>
    refine { h with visibleColumn := rfl, here := ?_, remembered := ?_ }
    · refine ⟨by have := h.here.lt; show breaking.lastBreak < _; omega, hchar.whole, fun _ => ?_⟩
      have hbreaking := h.breakingColumn
      show _ - (visibleColumnAt o text breaking.lastBreak : Int) ≤ if breaking.lastBreak = 0 then _ else _
      omega
    · intro hremembered
      obtain ⟨hline, hle, hat⟩ := h.remembered hremembered
      exact ⟨hline, by show breaking.breakOffset ≤ _; omega, hat⟩

theorem turn_wrappedTo :
    (breaking.turn o wrappedLineBreakColumn offset charCode).WrappedTo o text firstLineBreakColumn wrappedLineBreakColumn
      (offset + length) := by
  have hadd := add_wrappedTo (remember_wrappedTo h charCode) hchar
  rw [← h.visibleColumn] at hadd
  exact { hadd with }

end

theorem loop_wrappedTo (htext : isWellFormed text = true) : ∀ (rest : JsString) {breaking : Breaking} {offset : Nat},
    text.drop offset = rest → offset ≤ text.length →
    breaking.WrappedTo o text firstLineBreakColumn wrappedLineBreakColumn offset →
    (loop o wrappedLineBreakColumn breaking offset rest).WrappedTo o text firstLineBreakColumn wrappedLineBreakColumn
      text.length
  | [], breaking, offset, hdrop, hle, h => by
    have hoffset : offset = text.length := by
      have := drop_eq_nil_iff.mp hdrop
      omega
    rw [loop_nil, ← hoffset]
    exact h
  | [charCode], breaking, offset, hdrop, hle, h => by
    have hrest := isWellFormed_drop htext h.here.whole
    rw [hdrop, isWellFormed, Bool.and_eq_true, Bool.not_eq_true', Bool.not_eq_true', ← isHighSurrogate_eq] at hrest
    have hlength : text.length = offset + 1 := by
      have := congrArg List.length hdrop
      rw [length_drop, length_singleton] at this
      omega
    rw [loop, hlength]
    exact turn_wrappedTo h (characterAt_unit h.here.whole hdrop hrest.1 hrest.2)
  | charCode :: next :: rest, breaking, offset, hdrop, hle, h => by
    have hrest := isWellFormed_drop htext h.here.whole
    have hlength := congrArg List.length hdrop
    rw [length_drop, length_cons, length_cons] at hlength
    rw [loop]
    cases hhigh : isHighSurrogate charCode with
    | true =>
      rw [hdrop, isWellFormed_pair (by rw [← isHighSurrogate_eq, hhigh]), Bool.and_eq_true] at hrest
      apply loop_wrappedTo htext rest
      · rw [← drop_drop, hdrop]
        rfl
      · omega
      · exact turn_wrappedTo h (characterAt_pair h.here.whole hdrop hhigh hrest.1)
    | false =>
      rw [hdrop, isWellFormed_cons (by rw [← isHighSurrogate_eq, hhigh]), Bool.and_eq_true, Bool.not_eq_true'] at hrest
      apply loop_wrappedTo htext (next :: rest)
      · rw [← drop_drop, hdrop]
        rfl
      · omega
      · exact turn_wrappedTo h (characterAt_unit h.here.whole hdrop hhigh hrest.1)

theorem start_wrappedTo_of_character (hchar : CharacterAt o text 0 length (text.headD 0))
    (hcolumn : (start o firstLineBreakColumn text).visibleColumn = charWidth o (text.headD 0) 0) :
    (start o firstLineBreakColumn text).WrappedTo o text firstLineBreakColumn wrappedLineBreakColumn length := by
  have hzero : visibleColumnAt o text 0 = 0 := columnAfter_nil 0
  have hlength := hchar.column
  have hline : Line o text firstLineBreakColumn wrappedLineBreakColumn 0 (0 + length) := hchar.line
  rw [Nat.zero_add, hzero, Nat.zero_add] at hlength
  rw [Nat.zero_add] at hline
  have hstart : (start o firstLineBreakColumn text).breakingOffsets = [] ∧
      (start o firstLineBreakColumn text).breakingOffsetsVisibleColumn = [] ∧
      (start o firstLineBreakColumn text).breakOffset = 0 ∧
      (start o firstLineBreakColumn text).breakingColumn = firstLineBreakColumn := by
    unfold start
    dsimp only
    split <;> exact ⟨rfl, rfl, rfl, rfl⟩
  obtain ⟨hoffsets, hcolumns, hremembered, hbreaking⟩ := hstart
  have hlast : (start o firstLineBreakColumn text).lastBreak = 0 := by rw [lastBreak, hoffsets]; rfl
  constructor
  · rw [hcolumn, hlength]
  · rw [hcolumns, hoffsets, map_nil]
  · rw [hoffsets]
    exact isChain_singleton 0
  · rw [hlast]
    exact hline
  · rw [hlast, hbreaking, hzero, if_pos rfl]
    simp
  · exact fun h => absurd hremembered h

theorem start_wrappedTo (htext : isWellFormed text = true) (hlong : 1 < text.length) :
    (start o firstLineBreakColumn text).WrappedTo o text firstLineBreakColumn wrappedLineBreakColumn (startOffset text) := by
  match text, hlong with
  | charCode :: next :: rest, _ =>
    have hbefore : isWellFormed ((charCode :: next :: rest).take 0) = true := isWellFormed_nil
    cases hhigh : isHighSurrogate charCode with
    | true =>
      rw [isWellFormed_pair (by rw [← isHighSurrogate_eq, hhigh]), Bool.and_eq_true] at htext
      have hoffset : startOffset (charCode :: next :: rest) = 2 := if_pos hhigh
      rw [hoffset]
      apply start_wrappedTo_of_character (characterAt_pair hbefore rfl hhigh htext.1)
      have hwidth : computeCharWidth o charCode 0 = 1 := computeCharWidth_high hhigh
      simp [start, charWidth, hhigh, hwidth]
    | false =>
      rw [isWellFormed_cons (by rw [← isHighSurrogate_eq, hhigh]), Bool.and_eq_true, Bool.not_eq_true'] at htext
      have hoffset : startOffset (charCode :: next :: rest) = 1 := if_neg (by simp [hhigh])
      rw [hoffset]
      apply start_wrappedTo_of_character (characterAt_unit hbefore rfl hhigh htext.1)
      simp [start, charWidth, hhigh]

end Breaking

/-! ## The lines that are returned -/

/-- The line breaks of a text are well formed: they are in order, the last one is the end of the text, none is within a surrogate
pair, and a line of more than one character is no wider than the column it has. -/
structure WellWrapped (o : WrappingOptions) (text : JsString) (firstLineBreakColumn : Int) (data : LineBreaks) : Prop where
  increasing : data.breakOffsets.Pairwise (· < ·)
  ends : data.breakOffsets.getLast? = some text.length
  whole : ∀ offset ∈ data.breakOffsets, ¬ SplitsPair text offset
  fits : ∀ i, i < data.breakOffsets.length →
    1 < characterCount (text.substring (data.startOffset i) (data.breakOffset i)) →
    (visibleColumnAt o text (data.breakOffset i) - visibleColumnAt o text (data.startOffset i) : Int) ≤
      if i = 0 then firstLineBreakColumn else firstLineBreakColumn - data.wrappedTextIndentLength

theorem wellWrapped_of_lines (htext : isWellFormed text = true) {data : LineBreaks}
    (hends : data.breakOffsets.getLast? = some text.length)
    (hlines : (0 :: data.breakOffsets).IsChain
      (Line o text firstLineBreakColumn (firstLineBreakColumn - data.wrappedTextIndentLength))) :
    WellWrapped o text firstLineBreakColumn data := by
  have hpairwise : (0 :: data.breakOffsets).Pairwise (· < ·) :=
    isChain_iff_pairwise.mp (hlines.imp fun _ _ line => line.lt)
  have hline : ∀ i, i < data.breakOffsets.length → Line o text firstLineBreakColumn
      (firstLineBreakColumn - data.wrappedTextIndentLength) (data.startOffset i) (data.breakOffset i) := by
    intro i hi
    have h := isChain_iff_getElem.mp hlines i (by simpa using hi)
    have hstop : data.breakOffset i = data.breakOffsets[i] := by
      rw [ModelLineProjectionData.breakOffset, getElem?_eq_getElem hi, Option.getD_some]
    have hlt : i < (0 :: data.breakOffsets).length := by
      rw [length_cons]
      omega
    have hstart : data.startOffset i = (0 :: data.breakOffsets)[i] := by
      cases i with
      | zero => rfl
      | succ i =>
        rw [ModelLineProjectionData.startOffset, if_pos (Nat.succ_pos i), ModelLineProjectionData.breakOffset,
          Nat.add_sub_cancel, getElem?_eq_getElem (by omega), Option.getD_some, getElem_cons_succ]
    rw [hstop, hstart]
    exact h
  refine ⟨(pairwise_cons.mp hpairwise).2, hends, fun offset hoffset => ?_, fun i hi hmany => ?_⟩
  · obtain ⟨i, hi, hget⟩ := getElem_of_mem hoffset
    have hwhole := (hline i hi).whole
    rw [ModelLineProjectionData.breakOffset, getElem?_eq_getElem hi, Option.getD_some, hget] at hwhole
    exact not_splitsPair htext hwhole
  · have hfits := (hline i hi).fits hmany
    cases i with
    | zero => exact hfits
    | succ i =>
      have hpositive : data.startOffset (i + 1) ≠ 0 := by
        have := (hline i (by omega)).lt
        show data.breakOffset i ≠ 0
        omega
      rw [if_neg hpositive] at hfits
      exact hfits

end

/-- After the loop the lines so far and the one that the text ends with are well formed. -/
theorem loop_start_wrappedTo (o : WrappingOptions) (firstLineBreakColumn wrappedLineBreakColumn : Int)
    (htext : isWellFormed text = true) (hlength : 1 < text.length) :
    (Breaking.loop o wrappedLineBreakColumn (.start o firstLineBreakColumn text) (startOffset text)
        (text.drop (startOffset text))).WrappedTo o text firstLineBreakColumn wrappedLineBreakColumn text.length := by
  have hstop : startOffset text ≤ text.length := by
    unfold startOffset
    split <;> omega
  exact Breaking.loop_wrappedTo htext _ rfl hstop (Breaking.start_wrappedTo htext hlength)

/-- The breaks that are returned are well formed, with the visible columns at them unless the text, with the texts injected into it,
has at most one code unit.  A text for which none are returned fits in one line. -/
theorem createLineBreaks_wellWrapped (o : WrappingOptions) (lineText : JsString) (injectedTexts : List LineInjectedText)
    (firstLineBreakColumn : Int) (wrappingIndent : WrappingIndent) (hcolumn : 1 ≤ firstLineBreakColumn)
    (htext : isWellFormed (applyInjectedText lineText injectedTexts) = true) :
    let text := applyInjectedText lineText injectedTexts
    (∀ data, createLineBreaks o lineText injectedTexts firstLineBreakColumn wrappingIndent = some data →
      WellWrapped o text firstLineBreakColumn data ∧
        (1 < text.length → data.breakOffsetsVisibleColumn = data.breakOffsets.map (visibleColumnAt o text))) ∧
      (createLineBreaks o lineText injectedTexts firstLineBreakColumn wrappingIndent = none →
        1 < characterCount text → visibleColumnAt o text text.length ≤ firstLineBreakColumn) := by
  revert htext
  unfold createLineBreaks
  generalize applyInjectedText lineText injectedTexts = text
  intro htext
  dsimp only
  by_cases hshort : firstLineBreakColumn = -1 ∨ text.length ≤ 1
  · have hlength : text.length ≤ 1 := by omega
    have hone : characterCount text ≤ 1 := characterCount_le_one hlength
    rw [if_pos hshort]
    refine ⟨fun data hdata => ?_, fun _ hmany => absurd hmany (Nat.not_lt.mpr hone)⟩
    obtain ⟨injections, -, rfl⟩ := Option.map_eq_some_iff.mp hdata
    refine ⟨⟨pairwise_singleton _ _, rfl, ?_, ?_⟩, fun hlong => absurd hlong (by omega)⟩
    · intro offset hoffset
      rw [mem_singleton] at hoffset
      rintro ⟨-, low, -, -, hlow, -⟩
      rw [hoffset, getElem?_eq_none le_rfl] at hlow
      cases hlow
    · intro i hi hmany
      have hi : i = 0 := by simpa using hi
      subst hi
      have hall : text.substring 0 text.length = text := by simp [JsString.substring]
      change 1 < characterCount (text.substring 0 text.length) at hmany
      rw [hall] at hmany
      omega
  · have hwrapped := loop_start_wrappedTo o firstLineBreakColumn
      (firstLineBreakColumn - computeWrappedTextIndentLength o text firstLineBreakColumn wrappingIndent) htext (by omega)
    rw [if_neg hshort]
    constructor
    · intro data hdata
      split at hdata
      · cases hdata
      · obtain rfl := Option.some.inj hdata
        refine ⟨wellWrapped_of_lines htext ?_ ?_, fun _ => ?_⟩
        · simp
        · rw [← cons_append]
          apply hwrapped.lines.append (isChain_singleton _)
          intro start hstart stop hstop
          rw [getLast?_cons, ← getLastD_eq_getLast?, Option.mem_some_iff] at hstart
          rw [head?_cons, Option.mem_some_iff] at hstop
          rw [← hstart, ← hstop]
          exact hwrapped.here
        · rw [hwrapped.columns, hwrapped.visibleColumn, map_append, map_singleton]
    · intro hnone hmany
      split at hnone
      · next hempty =>
        -- no break was made, so the line that the text ends with is the whole text
        rw [Bool.and_eq_true, List.isEmpty_iff] at hempty
        have hline := hwrapped.here
        rw [Breaking.lastBreak, hempty.1] at hline
        have hfits := hline.fits (by simpa [JsString.substring] using hmany)
        simpa [visibleColumnAt] using hfits
      · cases hnone

/-- Spaces and tabs can be broken after, tabs are four columns. -/
def plain : WrappingOptions :=
  { classifier := { breakBefore := [], breakAfter := [32, 9] }, tabSize := 4, columnsForFullWidthChar := 2, isKeepAll := false }

/-- The line `ab ab` with a surrogate pair injected at its end, at three columns, and `ab` alone, which is not broken. -/
theorem createLineBreaks_wellWrapped_pair :
    (WellWrapped plain [97, 98, 32, 97, 98, 0xD83D, 0xDE00] 3
        { injections := some [⟨5, [0xD83D, 0xDE00], none⟩]
          breakOffsets := [3, 5, 7]
          breakOffsetsVisibleColumn := [3, 5, 7]
          wrappedTextIndentLength := 0 } ∧
      (1 < 7 → [3, 5, 7] = [3, 5, 7].map (visibleColumnAt plain [97, 98, 32, 97, 98, 0xD83D, 0xDE00]))) ∧
      visibleColumnAt plain [97, 98] 2 ≤ (3 : Int) :=
  ⟨(createLineBreaks_wellWrapped plain [97, 98, 32, 97, 98] [⟨6, [0xD83D, 0xDE00], none⟩] 3 .same (by decide)
      (by decide +kernel)).1 _ (by rfl),
    (createLineBreaks_wellWrapped plain [97, 98] [] 3 .same (by decide) (by decide +kernel)).2 (by rfl) (by decide +kernel)⟩

/-- A single character injected into an empty line: no visible column is given for its break. -/
theorem single_character_columns :
    isWellFormed (applyInjectedText [] [⟨1, [97], none⟩]) = true ∧
      ∃ data, createLineBreaks plain [] [⟨1, [97], none⟩] 1 .none = some data ∧
        data.breakOffsets = [1] ∧ data.breakOffsetsVisibleColumn = [] ∧
        data.breakOffsetsVisibleColumn ≠
          data.breakOffsets.map (visibleColumnAt plain (applyInjectedText [] [⟨1, [97], none⟩])) :=
  ⟨by decide +kernel, _, rfl, rfl, rfl, by simp⟩

end TongjiCode.ViewModel.Wrapping
