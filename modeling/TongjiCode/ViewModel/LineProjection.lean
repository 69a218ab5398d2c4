import TongjiCode.ViewModel.ModelLineProjectionData

/-!
# Projection of a wrapped line: round trips

A model offset `x` stands for a stretch of offsets with injections: from `x + below x`, in front of the texts injected at `x`, to
`x + upTo x`, behind them (`inputOffsetLoop_eq`).  `translateToOutputPosition` picks one of its ends, and
`normalizeOutputPosition` moves within it.

* `projection_round_trip`: the round trip through the output, and when normalizing twice is normalizing once.
-/

open List

namespace TongjiCode.ViewModel.Projections

namespace ModelLineProjectionData

variable {injections front back : List Injection} {injection : Injection} {d : ModelLineProjectionData}
  {affinity : PositionAffinity} {x w lineLength : Nat}

/-! ## Stretches of a model offset -/

def totalLength (injections : List Injection) : Nat := (injections.map fun injection => injection.content.length).sum

@[simp] theorem totalLength_nil : totalLength [] = 0 := rfl

@[simp] theorem totalLength_cons (injection : Injection) (injections : List Injection) :
    totalLength (injection :: injections) = injection.content.length + totalLength injections := rfl

@[simp] theorem totalLength_append (front back : List Injection) :
    totalLength (front ++ back) = totalLength front + totalLength back := by
  simp [totalLength]

@[simp] theorem totalLength_reverse (injections : List Injection) : totalLength injections.reverse = totalLength injections := by
  simp [totalLength]

/-- The length of what is injected before an offset. -/
def below (injections : List Injection) (x : Nat) : Nat := totalLength (injections.filter fun injection => injection.offset < x)

/-- The length of what is injected before an offset and at it. -/
def upTo (injections : List Injection) (x : Nat) : Nat := totalLength (injections.filter fun injection => injection.offset ≤ x)

theorem below_le_upTo (injections : List Injection) (x : Nat) : below injections x ≤ upTo injections x := by
  unfold below upTo
  induction injections with
  | nil => exact Nat.le_refl 0
  | cons injection injections ih =>
    simp only [filter_cons, decide_eq_true_eq]
    by_cases hlt : injection.offset < x
    · rw [if_pos hlt, if_pos (Nat.le_of_lt hlt), totalLength_cons, totalLength_cons]
      omega
    · rw [if_neg hlt]
      by_cases hle : injection.offset ≤ x
      · rw [if_pos hle, totalLength_cons]
        omega
      · rw [if_neg hle]
        exact ih

theorem upTo_le (injections : List Injection) (x : Nat) : upTo injections x ≤ totalLength injections := by
  unfold upTo
  induction injections with
  | nil => exact Nat.le_refl 0
  | cons injection injections ih =>
    simp only [filter_cons]
    split <;> simp only [totalLength_cons] <;> omega

/-- The injected texts in the order of their offsets. -/
abbrev Sorted (injections : List Injection) : Prop := injections.Pairwise fun a b => a.offset ≤ b.offset

theorem below_eq_zero (h : ∀ injection ∈ injections, x ≤ injection.offset) : below injections x = 0 := by
  have hnil : (injections.filter fun injection => injection.offset < x) = [] := by
    rw [filter_eq_nil_iff]
    intro injection hmem
    have := h injection hmem
    simp only [decide_eq_true_eq]
    omega
  rw [below, hnil, totalLength_nil]

theorem upTo_eq_zero (h : ∀ injection ∈ injections, x < injection.offset) : upTo injections x = 0 := by
  have hnil : (injections.filter fun injection => injection.offset ≤ x) = [] := by
    rw [filter_eq_nil_iff]
    intro injection hmem
    have := h injection hmem
    simp only [decide_eq_true_eq]
    omega
  rw [upTo, hnil, totalLength_nil]

theorem inputOffsetLoop_eq (hsorted : Sorted injections) (hbelow : x + below injections x ≤ w)
    (hupTo : w ≤ x + upTo injections x) : inputOffsetLoop injections w = x := by
  induction injections generalizing w with
  | nil =>
    simp only [below, upTo, filter_nil, totalLength_nil] at hbelow hupTo
    rw [inputOffsetLoop]
    omega
  | cons injection injections ih =>
    obtain ⟨hfirst, hsorted⟩ := pairwise_cons.mp hsorted
    rw [inputOffsetLoop]
    by_cases hlt : injection.offset < x
    · have hb : below (injection :: injections) x = injection.content.length + below injections x := by
        simp [below, hlt]
      have hu : upTo (injection :: injections) x = injection.content.length + upTo injections x := by
        simp [upTo, Nat.le_of_lt hlt]
      rw [if_pos (by omega), if_neg (by omega)]
      exact ih hsorted (by omega) (by omega)
    · have hb : below injections x = 0 := below_eq_zero fun i hi => by
        have := hfirst i hi
        omega
      by_cases heq : injection.offset = x
      · have hu : upTo (injection :: injections) x = injection.content.length + upTo injections x := by
          simp [upTo, heq]
        by_cases hgt : w > injection.offset
        · rw [if_pos hgt]
          by_cases hin : w < injection.offset + injection.content.length
          · rw [if_pos hin]
            exact ih hsorted (by omega) (by omega)
          · rw [if_neg hin]
            exact ih hsorted (by omega) (by omega)
        · rw [if_neg hgt]
          omega
      · have hu : upTo (injection :: injections) x = 0 := upTo_eq_zero fun i hi => by
          rcases mem_cons.mp hi with rfl | hi
          · omega
          · have := hfirst i hi
            omega
        rw [if_neg (by omega)]
        omega

theorem outputOffsetLoop_eq (hsorted : Sorted injections) (x : Nat) (affinity : PositionAffinity) (w : Nat) :
    outputOffsetLoop x affinity injections w = w + if affinity = .right then upTo injections x else below injections x := by
  induction injections generalizing w with
  | nil =>
    split <;> rfl
  | cons injection injections ih =>
    obtain ⟨hfirst, hsorted⟩ := pairwise_cons.mp hsorted
    rw [outputOffsetLoop]
    by_cases hlt : x < injection.offset
    · have hu : upTo (injection :: injections) x = 0 := upTo_eq_zero fun i hi => by
        rcases mem_cons.mp hi with rfl | hi
        · exact hlt
        · have := hfirst i hi
          omega
      have hle := below_le_upTo (injection :: injections) x
      rw [if_pos hlt]
      split <;> omega
    · rw [if_neg hlt]
      by_cases hat : affinity ≠ .right ∧ x = injection.offset
      · have hb : below (injection :: injections) x = 0 := below_eq_zero fun i hi => by
          rcases mem_cons.mp hi with rfl | hi
          · omega
          · have := hfirst i hi
            omega
        rw [if_pos hat, if_neg hat.1, hb, Nat.add_zero]
      · rw [if_neg hat, ih hsorted]
        by_cases hright : affinity = .right
        · have hu : upTo (injection :: injections) x = injection.content.length + upTo injections x := by
            simp [upTo, Nat.le_of_not_lt hlt]
          rw [if_pos hright, if_pos hright, hu]
          omega
        · have hlt' : injection.offset < x := by
            have : x ≠ injection.offset := fun heq => hat ⟨hright, heq⟩
            omega
          have hb : below (injection :: injections) x = injection.content.length + below injections x := by
            simp [below, hlt']
          rw [if_neg hright, if_neg hright, hb]
          omega

/-! ## The line of an offset -/

/-- A line with the injected texts in their order and the breaks in theirs, the last one at its end. -/
structure WellFormed (d : ModelLineProjectionData) (lineLength : Nat) : Prop where
  sorted : Sorted (d.injections.getD [])
  nonempty : ∀ injection ∈ d.injections.getD [], 0 < injection.content.length
  increasing : d.breakOffsets.Pairwise (· < ·)
  last : d.breakOffsets.getLast? = some (lineLength + totalLength (d.injections.getD []))

theorem breakOffset_lt (h : d.breakOffsets.Pairwise (· < ·)) {i j : Nat} (hij : i < j) (hj : j < d.breakOffsets.length) :
    d.breakOffset i < d.breakOffset j := by
  have hlt := pairwise_iff_getElem.mp h i j (by omega) hj hij
  rw [breakOffset, breakOffset, getElem?_eq_getElem hj, getElem?_eq_getElem (by omega)]
  exact hlt

@[simp] theorem startOffset_zero (d : ModelLineProjectionData) : d.startOffset 0 = 0 := rfl

@[simp] theorem startOffset_succ (d : ModelLineProjectionData) (i : Nat) : d.startOffset (i + 1) = d.breakOffset i := rfl

/-- The line ends before the offset; at its end is not before it for `left`. -/
def Before (d : ModelLineProjectionData) (w : Nat) (affinity : PositionAffinity) (line : Nat) : Prop :=
  if affinity = .left then d.breakOffset line < w else d.breakOffset line ≤ w

instance (d : ModelLineProjectionData) (w : Nat) (affinity : PositionAffinity) (line : Nat) :
    Decidable (d.Before w affinity line) := by
  unfold Before
  infer_instance

variable {line : Nat}

theorem Before.le (h : d.Before w affinity line) : d.breakOffset line ≤ w := by
  unfold Before at h
  split at h
  · omega
  · exact h

theorem Before.mono (hbreaks : d.breakOffsets.Pairwise (· < ·)) {i j : Nat} (h : d.Before w affinity j) (hij : i ≤ j)
    (hj : j < d.breakOffsets.length) : d.Before w affinity i := by
  rcases Nat.eq_or_lt_of_le hij with rfl | hij
  · exact h
  · have hlt := breakOffset_lt hbreaks hij hj
    unfold Before at *
    split at h
    · rw [if_pos (by assumption)]
      omega
    · rw [if_neg (by assumption)]
      omega

/-- The line to which an offset goes: the first one that does not end before it, or the last. -/
structure OnLine (d : ModelLineProjectionData) (w : Nat) (affinity : PositionAffinity) (line : Nat) : Prop where
  lt : line < d.breakOffsets.length
  before : ∀ i < line, d.Before w affinity i
  stop : line + 1 = d.breakOffsets.length ∨ ¬ d.Before w affinity line

/-- What the binary search knows: the lines below `low` end before the offset, those from `high` on start behind it. -/
structure Searching (d : ModelLineProjectionData) (w : Nat) (affinity : PositionAffinity) (low high : Nat) : Prop where
  high_le : high ≤ d.breakOffsets.length
  below : ∀ i < low, d.Before w affinity i
  above : ∀ i, high ≤ i + 1 → i + 1 < d.breakOffsets.length → ¬ d.Before w affinity i

/-- The line starts behind the offset; at its start is behind it for `left`. -/
def Behind (d : ModelLineProjectionData) (w : Nat) (affinity : PositionAffinity) (line : Nat) : Prop :=
  if affinity = .left then w ≤ d.startOffset line else w < d.startOffset line

theorem behind_succ (d : ModelLineProjectionData) (w : Nat) (affinity : PositionAffinity) (line : Nat) :
    d.Behind w affinity (line + 1) ↔ ¬ d.Before w affinity line := by
  unfold Behind Before
  rw [startOffset_succ]
  by_cases haff : affinity = .left
  · simp only [if_pos haff]
    omega
  · simp only [if_neg haff]
    omega

theorem Behind.zero (h : d.Behind w affinity 0) (line : Nat) : ¬ d.Before w affinity line := by
  unfold Behind at h
  unfold Before
  rw [startOffset_zero] at h
  by_cases haff : affinity = .left
  · simp only [if_pos haff] at *
    omega
  · simp only [if_neg haff] at *
    omega

variable {low high mid : Nat}

theorem Searching.left (hbreaks : d.breakOffsets.Pairwise (· < ·)) (h : d.Searching w affinity low high)
    (hlow : low ≤ mid) (hhigh : mid < high) (hbehind : d.Behind w affinity mid) :
    d.Searching w affinity low mid ∧ (low < mid ∨ d.OnLine w affinity mid) := by
  have hle := h.high_le
  cases mid with
  | zero =>
    have hnone := hbehind.zero
    exact ⟨⟨by omega, h.below, fun i _ _ => hnone i⟩, Or.inr ⟨by omega, fun i hi => by omega, Or.inr (hnone 0)⟩⟩
  | succ j =>
    have hj := (behind_succ d w affinity j).mp hbehind
    refine ⟨⟨by omega, h.below, fun i hi hlt hbefore => hj (hbefore.mono hbreaks (by omega) (by omega))⟩, ?_⟩
    by_cases hlt : low < j + 1
    · exact Or.inl hlt
    · exact absurd (h.below j (by omega)) hj

theorem Searching.right (hbreaks : d.breakOffsets.Pairwise (· < ·)) (h : d.Searching w affinity low high)
    (hhigh : mid < high) (hbefore : d.Before w affinity mid) :
    d.Searching w affinity (mid + 1) high ∧ (mid + 1 < high ∨ d.OnLine w affinity mid) := by
  have hle := h.high_le
  refine ⟨⟨hle, fun i hi => hbefore.mono hbreaks (by omega) (by omega), h.above⟩, ?_⟩
  by_cases hlt : mid + 1 < high
  · exact Or.inl hlt
  · refine Or.inr ⟨by omega, fun i hi => hbefore.mono hbreaks (by omega) (by omega), Or.inl ?_⟩
    by_cases hend : mid + 1 = d.breakOffsets.length
    · exact hend
    · exact absurd hbefore (h.above mid (by omega) (by omega))

theorem Searching.hit (hbreaks : d.breakOffsets.Pairwise (· < ·)) (h : d.Searching w affinity low high)
    (hhigh : mid < high) (hbehind : ¬ d.Behind w affinity mid) (hbefore : ¬ d.Before w affinity mid) :
    d.OnLine w affinity mid := by
  have hle := h.high_le
  refine ⟨by omega, fun i hi => ?_, Or.inr hbefore⟩
  cases mid with
  | zero => omega
  | succ j =>
    have hj : d.Before w affinity j := Decidable.not_not.mp (hbehind ∘ (behind_succ d w affinity j).mpr)
    exact hj.mono hbreaks (by omega) (by omega)

theorem findLineLoop_spec (hbreaks : d.breakOffsets.Pairwise (· < ·)) {low high mid midStart : Nat}
    (h : d.Searching w affinity low high) (hlast : low < high ∨ (d.OnLine w affinity mid ∧ midStart = d.startOffset mid)) :
    ∃ line, d.OnLine w affinity line ∧ d.findLineLoop w affinity low high mid midStart = (line, d.startOffset line) := by
  fun_induction findLineLoop d w affinity low high mid midStart with
  | case1 low high _ _ hlt mid midStart haff hle ih =>
    have hbehind : d.Behind w affinity mid := by rwa [Behind, if_pos haff]
    obtain ⟨hnext, hlast⟩ := h.left hbreaks (by omega) (by omega) hbehind
    exact ih hnext (hlast.imp id fun hline => ⟨hline, rfl⟩)
  | case2 low high _ _ hlt mid midStop midStart haff hle hgt ih =>
    have hbefore : d.Before w affinity mid := by rwa [Before, if_pos haff]
    obtain ⟨hnext, hlast⟩ := h.right hbreaks (by omega) hbefore
    exact ih hnext (hlast.imp id fun hline => ⟨hline, rfl⟩)
  | case3 low high _ _ hlt mid midStop midStart haff hle hgt =>
    have hbehind : ¬ d.Behind w affinity mid := by rwa [Behind, if_pos haff]
    have hbefore : ¬ d.Before w affinity mid := by rwa [Before, if_pos haff]
    exact ⟨mid, h.hit hbreaks (by omega) hbehind hbefore, rfl⟩
  | case4 low high _ _ hlt mid midStart haff hle ih =>
    have hbehind : d.Behind w affinity mid := by rwa [Behind, if_neg haff]
    obtain ⟨hnext, hlast⟩ := h.left hbreaks (by omega) (by omega) hbehind
    exact ih hnext (hlast.imp id fun hline => ⟨hline, rfl⟩)
  | case5 low high _ _ hlt mid midStop midStart haff hle hge ih =>
    have hbefore : d.Before w affinity mid := by rwa [Before, if_neg haff]
    obtain ⟨hnext, hlast⟩ := h.right hbreaks (by omega) hbefore
    exact ih hnext (hlast.imp id fun hline => ⟨hline, rfl⟩)
  | case6 low high _ _ hlt mid midStop midStart haff hle hge =>
    have hbehind : ¬ d.Behind w affinity mid := by rwa [Behind, if_neg haff]
    have hbefore : ¬ d.Before w affinity mid := by rwa [Before, if_neg haff]
    exact ⟨mid, h.hit hbreaks (by omega) hbehind hbefore, rfl⟩
  | case7 low high mid midStart hlt =>
    rcases hlast with hlast | ⟨hline, rfl⟩
    · exact absurd hlast hlt
    · exact ⟨mid, hline, rfl⟩

/-! ## Positions -/

def IsPosition (d : ModelLineProjectionData) (p : OutputPosition) : Prop :=
  p.outputLineIndex < d.getOutputLineCount ∧ d.getMinOutputOffset p.outputLineIndex ≤ p.outputOffset ∧
    p.outputOffset ≤ d.getMaxOutputOffset p.outputLineIndex

/-- `outputPositionToOffsetInInputWithInjections` of a position. -/
def offsetOf (d : ModelLineProjectionData) (p : OutputPosition) : Nat :=
  d.outputPositionToOffsetInInputWithInjections p.outputLineIndex p.outputOffset

theorem offsetOf_eq (d : ModelLineProjectionData) (p : OutputPosition) :
    d.offsetOf p = d.startOffset p.outputLineIndex + (p.outputOffset - d.getMinOutputOffset p.outputLineIndex) := by
  unfold offsetOf outputPositionToOffsetInInputWithInjections getMinOutputOffset
  split <;> rfl

theorem translateToInputOffset_eq (d : ModelLineProjectionData) (p : OutputPosition) :
    d.translateToInputOffset p.outputLineIndex p.outputOffset = inputOffsetLoop (d.injections.getD []) (d.offsetOf p) := by
  have hoffset : (if p.outputLineIndex = 0 then
        (if p.outputLineIndex > 0 then p.outputOffset - d.wrappedTextIndentLength else p.outputOffset)
      else d.breakOffset (p.outputLineIndex - 1) +
        (if p.outputLineIndex > 0 then p.outputOffset - d.wrappedTextIndentLength else p.outputOffset)) = d.offsetOf p := by
    unfold offsetOf outputPositionToOffsetInInputWithInjections startOffset
    cases p.outputLineIndex with
    | zero => simp
    | succ i => simp
  unfold translateToInputOffset
  simp only [hoffset]
  cases d.injections <;> rfl

def positionOn (d : ModelLineProjectionData) (w line : Nat) : OutputPosition :=
  ⟨line, w - d.startOffset line + d.getMinOutputOffset line⟩

@[simp] theorem offsetOf_positionOn (h : d.startOffset line ≤ w) : d.offsetOf (d.positionOn w line) = w := by
  rw [offsetOf_eq, positionOn]
  dsimp only
  omega

theorem OnLine.start_le (h : d.OnLine w affinity line) : d.startOffset line ≤ w := by
  cases line with
  | zero => exact Nat.zero_le w
  | succ line => exact (h.before line (by omega)).le

theorem exists_line (hbreaks : d.breakOffsets.Pairwise (· < ·)) (hpos : 0 < d.breakOffsets.length) (w : Nat)
    (affinity : PositionAffinity) : ∃ line, d.OnLine w affinity line ∧
      d.offsetInInputWithInjectionsToOutputPosition w affinity = d.positionOn w line := by
  have hsearch : d.Searching w affinity 0 d.breakOffsets.length :=
    ⟨Nat.le_refl _, fun i hi => by omega, fun i hi hlt => by omega⟩
  have hloop : ∃ line, d.OnLine w affinity line ∧
      d.findLineLoop w affinity 0 d.breakOffsets.length 0 0 = (line, d.startOffset line) :=
    findLineLoop_spec hbreaks hsearch (Or.inl hpos)
  obtain ⟨line, hline, heq⟩ := hloop
  refine ⟨line, hline, ?_⟩
  rw [offsetInInputWithInjectionsToOutputPosition, heq]
  unfold positionOn getMinOutputOffset
  dsimp only
  split <;> rfl

theorem WellFormed.length_pos (h : d.WellFormed lineLength) : 0 < d.breakOffsets.length := by
  have hlast := h.last
  cases hbreaks : d.breakOffsets with
  | nil =>
    rw [hbreaks] at hlast
    cases hlast
  | cons a rest => simp

theorem WellFormed.breakOffset_last (h : d.WellFormed lineLength) (hline : line + 1 = d.breakOffsets.length) :
    d.breakOffset line = lineLength + totalLength (d.injections.getD []) := by
  have hlast := h.last
  rw [getLast?_eq_getElem?, show d.breakOffsets.length - 1 = line by omega] at hlast
  rw [breakOffset, hlast]
  rfl

theorem OnLine.isPosition (h : d.OnLine w affinity line) (hd : d.WellFormed lineLength)
    (hw : w ≤ lineLength + totalLength (d.injections.getD [])) : d.IsPosition (d.positionOn w line) := by
  have hstop : w ≤ d.breakOffset line := by
    rcases h.stop with hlast | hbefore
    · rw [hd.breakOffset_last hlast]
      exact hw
    · unfold Before at hbefore
      split at hbefore <;> omega
  refine ⟨h.lt, by simp only [positionOn]; omega, ?_⟩
  unfold positionOn getMaxOutputOffset getLineLength getMinOutputOffset
  dsimp only
  split <;> omega

/-! ## The other side of a break -/

theorem startOffset_le (hbreaks : d.breakOffsets.Pairwise (· < ·)) {i : Nat} (hi : i < d.breakOffsets.length) :
    d.startOffset i ≤ d.breakOffset i := by
  cases i with
  | zero => exact Nat.zero_le _
  | succ i => exact Nat.le_of_lt (breakOffset_lt hbreaks (Nat.lt_add_one i) hi)

theorem getMaxOutputOffset_eq (d : ModelLineProjectionData) (i : Nat) :
    d.getMaxOutputOffset i = d.breakOffset i - d.startOffset i + d.getMinOutputOffset i := by
  unfold getMaxOutputOffset getLineLength getMinOutputOffset
  split <;> rfl

theorem OnLine.normalizeAtBreak (h : d.OnLine w affinity line) :
    d.normalizeAtBreak line (d.positionOn w line).outputOffset affinity = d.positionOn w line := by
  have hstart := h.start_le
  cases affinity with
  | left =>
    refine if_neg ?_
    rintro ⟨hpos, hmin⟩
    obtain ⟨i, rfl⟩ : ∃ i, line = i + 1 := ⟨line - 1, by omega⟩
    have hbefore := h.before i (Nat.lt_add_one i)
    rw [Before, if_pos rfl] at hbefore
    rw [positionOn, startOffset_succ] at hmin
    dsimp only at hmin
    omega
  | right =>
    refine if_neg ?_
    rintro ⟨hlt, hmax⟩
    unfold getOutputLineCount at hlt
    rcases h.stop with hlast | hbefore
    · omega
    · rw [Before, if_neg (by decide)] at hbefore
      rw [positionOn, getMaxOutputOffset_eq] at hmax
      dsimp only at hmax
      omega
  | none => rfl
  | leftOfInjectedText => rfl
  | rightOfInjectedText => rfl

/-- The other side of a break is the same offset, and is not moved again. -/
theorem normalizeAtBreak_spec (hbreaks : d.breakOffsets.Pairwise (· < ·)) {p : OutputPosition} (h : d.IsPosition p)
    (affinity : PositionAffinity) :
    d.offsetOf (d.normalizeAtBreak p.outputLineIndex p.outputOffset affinity) = d.offsetOf p ∧
      d.normalizeAtBreak (d.normalizeAtBreak p.outputLineIndex p.outputOffset affinity).outputLineIndex
          (d.normalizeAtBreak p.outputLineIndex p.outputOffset affinity).outputOffset affinity =
        d.normalizeAtBreak p.outputLineIndex p.outputOffset affinity := by
  obtain ⟨line, offset⟩ := p
  obtain ⟨hline, -, -⟩ := h
  dsimp only at *
  cases affinity with
  | left =>
    by_cases hmin : line > 0 ∧ offset = d.getMinOutputOffset line
    · obtain ⟨i, rfl⟩ : ∃ i, line = i + 1 := ⟨line - 1, by omega⟩
      have heq : d.normalizeAtBreak (i + 1) offset .left = ⟨i, d.getMaxOutputOffset i⟩ := if_pos hmin
      have hstart := startOffset_le hbreaks (Nat.lt_of_succ_lt hline)
      rw [heq]
      dsimp only
      constructor
      · rw [offsetOf_eq, offsetOf_eq, getMaxOutputOffset_eq, hmin.right]
        dsimp only
        rw [startOffset_succ]
        omega
      · refine if_neg ?_
        rintro ⟨hpos, hsame⟩
        obtain ⟨j, rfl⟩ : ∃ j, i = j + 1 := ⟨i - 1, by omega⟩
        have hlt := breakOffset_lt hbreaks (Nat.lt_add_one j) (Nat.lt_of_succ_lt hline)
        rw [getMaxOutputOffset_eq, startOffset_succ] at hsame
        omega
    · have heq : d.normalizeAtBreak line offset .left = ⟨line, offset⟩ := if_neg hmin
      rw [heq]
      exact ⟨rfl, heq⟩
  | right =>
    by_cases hend : line + 1 < d.getOutputLineCount ∧ offset = d.getMaxOutputOffset line
    · have heq : d.normalizeAtBreak line offset .right = ⟨line + 1, d.getMinOutputOffset (line + 1)⟩ := if_pos hend
      have hstart := startOffset_le hbreaks hline
      rw [heq]
      dsimp only
      constructor
      · rw [offsetOf_eq, offsetOf_eq, hend.right, getMaxOutputOffset_eq]
        dsimp only
        rw [startOffset_succ]
        omega
      · refine if_neg ?_
        rintro ⟨-, hsame⟩
        have hlt := breakOffset_lt hbreaks (Nat.lt_add_one line) hend.left
        rw [getMaxOutputOffset_eq, startOffset_succ] at hsame
        omega
    · have heq : d.normalizeAtBreak line offset .right = ⟨line, offset⟩ := if_neg hend
      rw [heq]
      exact ⟨rfl, heq⟩
  | none => exact ⟨rfl, rfl⟩
  | leftOfInjectedText => exact ⟨rfl, rfl⟩
  | rightOfInjectedText => exact ⟨rfl, rfl⟩

/-! ## Injected texts at one offset -/

/-- The injected text that is found at an offset: the first one that does not end before it. -/
theorem injectedTextLoop_eq (i total : Nat) (hfront : ∀ f ∈ front, f.offset + (total + totalLength front) < w)
    (hstart : injection.offset + (total + totalLength front) ≤ w)
    (hstop : w ≤ injection.offset + (total + totalLength front) + injection.content.length) :
    injectedTextLoop w (front ++ injection :: back) i total =
      some ⟨i + front.length, injection.offset + (total + totalLength front), injection.content.length⟩ := by
  induction front generalizing i total with
  | nil =>
    simp only [totalLength_nil, Nat.add_zero] at hstart hstop
    rw [nil_append, injectedTextLoop, if_neg (by omega), if_pos hstop]
    rfl
  | cons f front ih =>
    have hf := hfront f mem_cons_self
    have hrest : ∀ f' ∈ front, f'.offset + (total + f.content.length + totalLength front) < w := by
      intro f' hf'
      have := hfront f' (mem_cons_of_mem _ hf')
      rw [totalLength_cons] at this
      omega
    rw [totalLength_cons] at hstart hstop hf
    rw [cons_append, injectedTextLoop, if_neg (by omega), if_neg (by omega),
      ih (i + 1) (total + f.content.length) hrest (by omega) (by omega), length_cons, totalLength_cons]
    congr 2 <;> omega

variable {t : InjectedTextAt}

theorem injectedTextLoop_some {i total : Nat} (h : injectedTextLoop w injections i total = some t) :
    ∃ front injection back, injections = front ++ injection :: back ∧ t.injectedTextIndex = i + front.length ∧
      t.offsetInInputWithInjections = injection.offset + (total + totalLength front) ∧ t.length = injection.content.length ∧
      t.offsetInInputWithInjections ≤ w ∧ w ≤ t.offsetInInputWithInjections + t.length := by
  induction injections generalizing i total with
  | nil => cases h
  | cons f injections ih =>
    rw [injectedTextLoop] at h
    by_cases hstart : f.offset + total > w
    · rw [if_pos hstart] at h
      cases h
    · rw [if_neg hstart] at h
      by_cases hstop : w ≤ f.offset + total + f.content.length
      · rw [if_pos hstop] at h
        obtain rfl := Option.some.inj h
        exact ⟨[], f, injections, rfl, rfl, rfl, rfl, by dsimp only; omega, hstop⟩
      · rw [if_neg hstop] at h
        obtain ⟨front, injection, back, rfl, hindex, hoffset, hlength, hle, hge⟩ := ih h
        refine ⟨f :: front, injection, back, rfl, ?_, ?_, hlength, hle, hge⟩
        · rw [length_cons]
          omega
        · rw [totalLength_cons]
          omega

/-- The injected texts at the offset `x`, between those before it and those behind it. -/
structure Touching (injections : List Injection) (x : Nat) (before group after : List Injection) : Prop where
  split : injections = before ++ group ++ after
  before : ∀ injection ∈ before, injection.offset < x
  group : ∀ injection ∈ group, injection.offset = x
  after : ∀ injection ∈ after, x < injection.offset

theorem exists_split (hsorted : Sorted injections) (x : Nat) :
    ∃ front back, injections = front ++ back ∧ (∀ f ∈ front, f.offset < x) ∧ ∀ f ∈ back, x ≤ f.offset := by
  induction injections with
  | nil => exact ⟨[], [], rfl, fun f hf => (nomatch hf), fun f hf => (nomatch hf)⟩
  | cons injection injections ih =>
    obtain ⟨hfirst, hsorted⟩ := pairwise_cons.mp hsorted
    by_cases hlt : injection.offset < x
    · obtain ⟨front, back, rfl, hfront, hback⟩ := ih hsorted
      refine ⟨injection :: front, back, rfl, fun f hf => ?_, hback⟩
      rcases mem_cons.mp hf with rfl | hf
      · exact hlt
      · exact hfront f hf
    · refine ⟨[], injection :: injections, rfl, fun f hf => (nomatch hf), fun f hf => ?_⟩
      rcases mem_cons.mp hf with rfl | hf
      · omega
      · have := hfirst f hf
        omega

theorem exists_touching (hsorted : Sorted (front ++ injection :: back)) :
    ∃ before left right after, front = before ++ left ∧ back = right ++ after ∧
      Touching (front ++ injection :: back) injection.offset before (left ++ injection :: right) after := by
  obtain ⟨hfront, hrest, hcross⟩ := pairwise_append.mp hsorted
  obtain ⟨hfirst, hback⟩ := pairwise_cons.mp hrest
  obtain ⟨before, left, rfl, hbefore, hleft⟩ := exists_split hfront injection.offset
  obtain ⟨right, after, rfl, hright, hafter⟩ := exists_split hback (injection.offset + 1)
  refine ⟨before, left, right, after, rfl, rfl, by simp, hbefore, fun f hf => ?_, fun f hf => hafter f hf⟩
  rcases mem_append.mp hf with hf | hf
  · have hle := hcross f (mem_append_right before hf) injection mem_cons_self
    have hge := hleft f hf
    omega
  · rcases mem_cons.mp hf with rfl | hf
    · rfl
    · have hge := hfirst f (mem_append_left after hf)
      have hlt := hright f hf
      omega

section Touching

variable {before group after : List Injection}

theorem Touching.below_eq (h : Touching injections x before group after) : below injections x = totalLength before := by
  have hbefore : (before.filter fun injection => injection.offset < x) = before :=
    filter_eq_self.mpr fun f hf => decide_eq_true (h.before f hf)
  have hgroup : (group.filter fun injection => injection.offset < x) = [] := by
    refine filter_eq_nil_iff.mpr fun f hf => ?_
    have := h.group f hf
    simp only [decide_eq_true_eq]
    omega
  have hafter : (after.filter fun injection => injection.offset < x) = [] := by
    refine filter_eq_nil_iff.mpr fun f hf => ?_
    have := h.after f hf
    simp only [decide_eq_true_eq]
    omega
  rw [below, h.split, filter_append, filter_append, hbefore, hgroup, hafter, append_nil, append_nil]

theorem Touching.upTo_eq (h : Touching injections x before group after) :
    upTo injections x = totalLength before + totalLength group := by
  have hbefore : (before.filter fun injection => injection.offset ≤ x) = before :=
    filter_eq_self.mpr fun f hf => decide_eq_true (Nat.le_of_lt (h.before f hf))
  have hgroup : (group.filter fun injection => injection.offset ≤ x) = group :=
    filter_eq_self.mpr fun f hf => decide_eq_true (Nat.le_of_eq (h.group f hf))
  have hafter : (after.filter fun injection => injection.offset ≤ x) = [] := by
    refine filter_eq_nil_iff.mpr fun f hf => ?_
    have := h.after f hf
    simp only [decide_eq_true_eq]
    omega
  rw [upTo, h.split, filter_append, filter_append, hbefore, hgroup, hafter, append_nil, totalLength_append]

theorem endLoop_eq {move : Nat → Nat → Nat} (hmove : ∀ w m n, move (move w m) n = move w (m + n)) (hzero : ∀ w, move w 0 = w)
    (hgroup : ∀ f ∈ group, f.offset = x) (hafter : ∀ f ∈ after, f.offset ≠ x) (w : Nat) :
    endLoop move x (group ++ after) w = move w (totalLength group) := by
  induction group generalizing w with
  | nil =>
    rw [totalLength_nil, hzero]
    cases after with
    | nil => rfl
    | cons f after => exact if_neg (hafter f mem_cons_self)
  | cons f group ih =>
    rw [cons_append, endLoop, if_pos (hgroup f mem_cons_self),
      ih (fun f' hf' => hgroup f' (mem_cons_of_mem _ hf')), totalLength_cons, hmove]

theorem leftEndLoop_eq (hgroup : ∀ f ∈ group, f.offset = x) (hbefore : ∀ f ∈ before, f.offset ≠ x) (w : Nat) :
    leftEndLoop x (group ++ before) w = w - totalLength group :=
  endLoop_eq Nat.sub_sub Nat.sub_zero hgroup hbefore w

theorem rightEndLoop_eq (hgroup : ∀ f ∈ group, f.offset = x) (hafter : ∀ f ∈ after, f.offset ≠ x) (w : Nat) :
    rightEndLoop x (group ++ after) w = w + totalLength group :=
  endLoop_eq Nat.add_assoc Nat.add_zero hgroup hafter w

end Touching

/-- Going left over injected texts at one offset, the first cursor stop is the left one of a text whose left neighbour has no
right one. -/
def leftStopUnshared : List Injection → Bool
  | injection :: previous :: rest =>
    !hasRightCursorStop previous.cursorStops &&
      (hasLeftCursorStop injection.cursorStops || leftStopUnshared (previous :: rest))
  | _ => false

theorem leftStopUnshared_of_left (h : hasLeftCursorStop injection.cursorStops = true) (previous : List Injection) :
    leftStopUnshared (injection :: previous) = (previous.head?.map fun p => !hasRightCursorStop p.cursorStops).getD false := by
  cases previous with
  | nil => rfl
  | cons p previous => simp [leftStopUnshared, h]

/-- The search ends at the left end of `passed`, and whether the stop there is shared is what was asked in front of it. -/
theorem cursorStopLoop_eq {group before : List Injection} (hgroup : ∀ f ∈ group, f.offset = x)
    (hbefore : ∀ f ∈ before, f.offset ≠ x) (hleft : hasLeftCursorStop injection.cursorStops = false) (w : Nat) :
    ∃ passed rest, group = passed ++ rest ∧ cursorStopLoop x (group ++ before) w = w - totalLength passed ∧
      leftStopUnshared (injection :: group) = (rest.head?.map fun p => !hasRightCursorStop p.cursorStops).getD false := by
  induction group generalizing injection w with
  | nil =>
    refine ⟨[], [], rfl, ?_, rfl⟩
    cases before with
    | nil => rfl
    | cons f before => exact if_neg (hbefore f mem_cons_self)
  | cons p group ih =>
    have hgroup' : ∀ f ∈ group, f.offset = x := fun f hf => hgroup f (mem_cons_of_mem _ hf)
    rw [cons_append, cursorStopLoop, if_pos (hgroup p mem_cons_self), leftStopUnshared, hleft, Bool.false_or]
    by_cases hright : hasRightCursorStop p.cursorStops = true
    · refine ⟨[], p :: group, rfl, by rw [if_pos hright]; rfl, ?_⟩
      simp [hright]
    · rw [if_neg hright]
      rw [Bool.not_eq_true] at hright
      rw [hright, Bool.not_false, Bool.true_and]
      by_cases hp : hasLeftCursorStop p.cursorStops = true
      · refine ⟨[p], group, rfl, ?_, leftStopUnshared_of_left hp group⟩
        rw [if_pos hp, totalLength_cons, totalLength_nil, Nat.add_zero]
      · obtain ⟨passed, rest, rfl, hloop, hshared⟩ := ih hgroup' (Bool.eq_false_iff.mpr hp) (w - p.content.length)
        refine ⟨p :: passed, rest, rfl, ?_, hshared⟩
        rw [if_neg hp, hloop, totalLength_cons, Nat.sub_sub]

/-! ## Normalized offsets -/

theorem getInjectedTextAtOffset_eq (d : ModelLineProjectionData) (w : Nat) :
    d.getInjectedTextAtOffset w = injectedTextLoop w (d.injections.getD []) 0 0 := by
  unfold getInjectedTextAtOffset
  cases d.injections <;> rfl

theorem normalize_of_found (hsplit : d.injections.getD [] = front ++ injection :: back)
    (hfound : d.getInjectedTextAtOffset w = some t) (hindex : t.injectedTextIndex = front.length)
    (affinity : PositionAffinity) :
    d.normalizeOffsetInInputWithInjectionsAroundInjections w affinity =
      match affinity with
      | .none =>
        if w = t.offsetInInputWithInjections + t.length ∧ hasRightCursorStop injection.cursorStops then
          t.offsetInInputWithInjections + t.length
        else if hasLeftCursorStop injection.cursorStops then t.offsetInInputWithInjections
        else cursorStopLoop injection.offset front.reverse t.offsetInInputWithInjections
      | .right | .rightOfInjectedText => rightEndLoop injection.offset back (t.offsetInInputWithInjections + t.length)
      | .left | .leftOfInjectedText => leftEndLoop injection.offset front.reverse t.offsetInInputWithInjections := by
  have hat : (front ++ injection :: back)[front.length]? = some injection := by simp
  have htake : (front ++ injection :: back).take front.length = front := by simp
  have hdrop : (front ++ injection :: back).drop (front.length + 1) = back := by simp
  obtain ⟨index, start, length⟩ := t
  subst hindex
  unfold normalizeOffsetInInputWithInjectionsAroundInjections
  cases affinity <;> simp only [hfound, hsplit, hat, htake, hdrop]

section Group

variable {before left right after : List Injection} {n : Nat}

section

variable (h : Touching (d.injections.getD []) x before (left ++ injection :: right) after)
include h

theorem Touching.at_injection : injection.offset = x ∧ d.injections.getD [] = (before ++ left) ++ injection :: (right ++ after) := by
  refine ⟨h.group injection (by simp), ?_⟩
  rw [h.split]
  simp

theorem Touching.found (hstart : x + (totalLength before + totalLength left) ≤ n)
    (hpassed : left = [] ∨ x + (totalLength before + totalLength left) < n)
    (hstop : n ≤ x + (totalLength before + totalLength left) + injection.content.length) :
    d.getInjectedTextAtOffset n = some ⟨(before ++ left).length, x + (totalLength before + totalLength left),
      injection.content.length⟩ := by
  obtain ⟨hoffset, hsplit⟩ := h.at_injection
  have hfront : ∀ f ∈ before ++ left, f.offset + (0 + totalLength (before ++ left)) < n := by
    intro f hf
    rw [totalLength_append, Nat.zero_add]
    rcases mem_append.mp hf with hf | hf
    · have := h.before f hf
      omega
    · have := h.group f (mem_append_left _ hf)
      rcases hpassed with rfl | hlt
      · cases hf
      · omega
  rw [getInjectedTextAtOffset_eq, hsplit, injectedTextLoop_eq 0 0 hfront (by rw [totalLength_append]; omega)
    (by rw [totalLength_append]; omega), totalLength_append, hoffset, Nat.zero_add, Nat.zero_add]

section

variable
  (hfound : d.getInjectedTextAtOffset n = some ⟨(before ++ left).length, x + (totalLength before + totalLength left), injection.content.length⟩)
include hfound

theorem Touching.normalize_left
    (haff : affinity = .left ∨ affinity = .leftOfInjectedText) :
    d.normalizeOffsetInInputWithInjectionsAroundInjections n affinity = x + totalLength before := by
  obtain ⟨hoffset, hsplit⟩ := h.at_injection
  have hleft : ∀ f ∈ left.reverse, f.offset = x := fun f hf => h.group f (mem_append_left _ (mem_reverse.mp hf))
  have hbefore : ∀ f ∈ before.reverse, f.offset ≠ x := fun f hf => Nat.ne_of_lt (h.before f (mem_reverse.mp hf))
  have hloop := leftEndLoop_eq hleft hbefore (x + (totalLength before + totalLength left))
  rw [totalLength_reverse] at hloop
  rw [normalize_of_found hsplit hfound rfl]
  rcases haff with rfl | rfl
  · dsimp only
    rw [reverse_append, hoffset, hloop]
    omega
  · dsimp only
    rw [reverse_append, hoffset, hloop]
    omega

theorem Touching.normalize_right
    (haff : affinity = .right ∨ affinity = .rightOfInjectedText) :
    d.normalizeOffsetInInputWithInjectionsAroundInjections n affinity =
      x + (totalLength before + totalLength (left ++ injection :: right)) := by
  obtain ⟨hoffset, hsplit⟩ := h.at_injection
  have hright : ∀ f ∈ right, f.offset = x := fun f hf => h.group f (by simp [hf])
  have hafter : ∀ f ∈ after, f.offset ≠ x := fun f hf => Nat.ne_of_gt (h.after f hf)
  have hloop := rightEndLoop_eq hright hafter (x + (totalLength before + totalLength left) + injection.content.length)
  rw [normalize_of_found hsplit hfound rfl, totalLength_append, totalLength_cons]
  rcases haff with rfl | rfl
  · dsimp only
    rw [hoffset, hloop]
    omega
  · dsimp only
    rw [hoffset, hloop]
    omega

/-- Without a preference the offset goes to a cursor stop: it stays, or moves in front of `passed`. -/
theorem Touching.normalize_none
    (hstop : ¬ (n = x + (totalLength before + totalLength left) + injection.content.length ∧ hasRightCursorStop injection.cursorStops = true)) :
    ∃ passed rest, left.reverse = passed ++ rest ∧
      d.normalizeOffsetInInputWithInjectionsAroundInjections n .none = x + (totalLength before + totalLength rest) ∧
      leftStopUnshared (injection :: left.reverse) =
        (rest.head?.map fun p => !hasRightCursorStop p.cursorStops).getD false := by
  obtain ⟨hoffset, hsplit⟩ := h.at_injection
  rw [normalize_of_found hsplit hfound rfl]
  dsimp only
  rw [if_neg hstop]
  by_cases hleft : hasLeftCursorStop injection.cursorStops = true
  · refine ⟨[], left.reverse, rfl, ?_, leftStopUnshared_of_left hleft left.reverse⟩
    rw [if_pos hleft, totalLength_reverse]
  · have hgroup : ∀ f ∈ left.reverse, f.offset = x := fun f hf => h.group f (mem_append_left _ (mem_reverse.mp hf))
    have hbefore : ∀ f ∈ before.reverse, f.offset ≠ x := fun f hf => Nat.ne_of_lt (h.before f (mem_reverse.mp hf))
    obtain ⟨passed, rest, heq, hloop, hshared⟩ := cursorStopLoop_eq hgroup hbefore (Bool.eq_false_iff.mpr hleft)
      (x + (totalLength before + totalLength left))
    have htotal : totalLength left = totalLength passed + totalLength rest := by
      rw [← totalLength_reverse left, heq, totalLength_append]
    refine ⟨passed, rest, heq, ?_, hshared⟩
    rw [if_neg hleft, reverse_append, hoffset, hloop]
    omega

end

end

end Group

/-- The injected text of an index and, going left, those at the same offset. -/
def touchingFrom (injections : List Injection) (index : Nat) : List Injection :=
  match injections[index]? with
  | none => []
  | some injection => injection :: (injections.take index).reverse.takeWhile fun previous => previous.offset = injection.offset

/-- The offset is on injected text, not at a right cursor stop of it, and the first cursor stop to the left is an unshared one. -/
def rebounds (d : ModelLineProjectionData) (w : Nat) : Bool :=
  match d.getInjectedTextAtOffset w with
  | none => false
  | some t =>
    let touching := touchingFrom (d.injections.getD []) t.injectedTextIndex
    !(w == t.offsetInInputWithInjections + t.length && touching.head?.any fun injection =>
      hasRightCursorStop injection.cursorStops) && leftStopUnshared touching

theorem normalize_not_found (h : d.getInjectedTextAtOffset w = none) (affinity : PositionAffinity) :
    d.normalizeOffsetInInputWithInjectionsAroundInjections w affinity = w := by
  unfold normalizeOffsetInInputWithInjectionsAroundInjections
  rw [h]

/-- What is found at an offset, among the injected texts at its model offset. -/
structure FoundAt (d : ModelLineProjectionData) (w x : Nat) (before left : List Injection) (injection : Injection)
    (right after : List Injection) : Prop where
  touching : Touching (d.injections.getD []) x before (left ++ injection :: right) after
  nonempty : ∀ f ∈ left ++ injection :: right, 0 < f.content.length
  found : d.getInjectedTextAtOffset w = some ⟨(before ++ left).length, x + (totalLength before + totalLength left),
    injection.content.length⟩
  start : x + (totalLength before + totalLength left) ≤ w
  stop : w ≤ x + (totalLength before + totalLength left) + injection.content.length

theorem exists_foundAt (hd : d.WellFormed lineLength) (h : d.getInjectedTextAtOffset w = some t) :
    ∃ x before left injection right after, d.FoundAt w x before left injection right after := by
  have hloop := h
  rw [getInjectedTextAtOffset_eq] at hloop
  obtain ⟨front, injection, back, hsplit, hindex, hoffset, hlength, hstart, hstop⟩ := injectedTextLoop_some hloop
  have hsorted := hd.sorted
  rw [hsplit] at hsorted
  obtain ⟨before, left, right, after, rfl, rfl, htouching⟩ := exists_touching hsorted
  rw [← hsplit] at htouching
  have heq : t = ⟨(before ++ left).length, injection.offset + (totalLength before + totalLength left),
      injection.content.length⟩ := by
    obtain ⟨index, start, length⟩ := t
    rw [totalLength_append, Nat.zero_add] at hoffset
    dsimp only at *
    rw [hoffset, hlength, hindex, Nat.zero_add]
  subst heq
  refine ⟨injection.offset, before, left, injection, right, after, htouching, fun f hf => ?_, h, hstart, hstop⟩
  refine hd.nonempty f ?_
  rw [htouching.split]
  exact mem_append_left _ (mem_append_right _ hf)

section Found

variable {before left right after : List Injection} {n : Nat}

theorem Touching.found_start {group : List Injection} (h : Touching (d.injections.getD []) x before (injection :: group) after) :
    d.getInjectedTextAtOffset (x + totalLength before) =
      some ⟨(before ++ []).length, x + (totalLength before + totalLength []), injection.content.length⟩ := by
  have hempty : Touching (d.injections.getD []) x before ([] ++ injection :: group) after := h
  exact hempty.found (Nat.le_refl _) (Or.inl rfl) (by rw [totalLength_nil]; omega)

section

variable (h : d.FoundAt w x before left injection right after)
include h

theorem FoundAt.normalize_left (haff : affinity = .left ∨ affinity = .leftOfInjectedText) :
    d.normalizeOffsetInInputWithInjectionsAroundInjections w affinity = x + totalLength before ∧
      d.normalizeOffsetInInputWithInjectionsAroundInjections (x + totalLength before) affinity = x + totalLength before := by
  refine ⟨h.touching.normalize_left h.found haff, ?_⟩
  have htouching := h.touching
  obtain ⟨first, group, hgroup⟩ : ∃ first group, left ++ injection :: right = first :: group := by
    cases left with
    | nil => exact ⟨injection, right, rfl⟩
    | cons first left => exact ⟨first, left ++ injection :: right, rfl⟩
  rw [hgroup] at htouching
  have hempty : Touching (d.injections.getD []) x before ([] ++ first :: group) after := htouching
  exact hempty.normalize_left htouching.found_start haff

theorem FoundAt.normalize_right (haff : affinity = .right ∨ affinity = .rightOfInjectedText) :
    let n := x + (totalLength before + totalLength (left ++ injection :: right))
    d.normalizeOffsetInInputWithInjectionsAroundInjections w affinity = n ∧
      d.normalizeOffsetInInputWithInjectionsAroundInjections n affinity = n := by
  intro n
  refine ⟨h.touching.normalize_right h.found haff, ?_⟩
  have htouching := h.touching
  obtain ⟨group, last, hgroup⟩ : ∃ group last, left ++ injection :: right = group ++ [last] :=
    ⟨_, _, (dropLast_append_getLast (by simp)).symm⟩
  have hpos := h.nonempty last (by simp [hgroup])
  have hn : n = x + (totalLength before + totalLength group) + last.content.length := by
    show x + (totalLength before + totalLength (left ++ injection :: right)) = _
    rw [hgroup, totalLength_append, totalLength_cons, totalLength_nil]
    omega
  rw [hgroup] at htouching
  have hfound := htouching.found (n := n) (by omega) (Or.inr (by omega)) (by omega)
  rw [htouching.normalize_right hfound haff, ← hgroup]

theorem FoundAt.touchingFrom_eq :
    touchingFrom (d.injections.getD []) (before ++ left).length = injection :: left.reverse := by
  obtain ⟨hoffset, hsplit⟩ := h.touching.at_injection
  have hat : ((before ++ left) ++ injection :: (right ++ after))[(before ++ left).length]? = some injection := by simp
  have htake : ((before ++ left) ++ injection :: (right ++ after)).take (before ++ left).length = before ++ left :=
    take_left
  have hleft : ∀ f ∈ left.reverse, decide (f.offset = injection.offset) = true := by
    intro f hf
    rw [hoffset]
    exact decide_eq_true (h.touching.group f (mem_append_left _ (mem_reverse.mp hf)))
  have hbefore : (before.reverse.takeWhile fun previous => decide (previous.offset = injection.offset)) = [] := by
    cases hb : before.reverse with
    | nil => rfl
    | cons f rest =>
      have hlt := h.touching.before f (mem_reverse.mp (by rw [hb]; exact mem_cons_self))
      rw [takeWhile_cons, if_neg]
      simp only [decide_eq_true_eq]
      omega
  rw [touchingFrom, hsplit, hat]
  dsimp only
  rw [htake, reverse_append, takeWhile_append_of_pos hleft, hbefore, append_nil]

/-- Without a preference, normalizing twice is normalizing once unless the offset rebounds. -/
theorem FoundAt.normalize_none :
    x + totalLength before ≤ d.normalizeOffsetInInputWithInjectionsAroundInjections w .none ∧
      d.normalizeOffsetInInputWithInjectionsAroundInjections w .none ≤
        x + (totalLength before + totalLength (left ++ injection :: right)) ∧
      (d.normalizeOffsetInInputWithInjectionsAroundInjections
          (d.normalizeOffsetInInputWithInjectionsAroundInjections w .none) .none =
        d.normalizeOffsetInInputWithInjectionsAroundInjections w .none ↔ d.rebounds w = false) := by
  have hsplit : d.injections.getD [] = (before ++ left) ++ injection :: (right ++ after) := by
    rw [h.touching.split]
    simp
  have htotal : totalLength (left ++ injection :: right) =
      totalLength left + (injection.content.length + totalLength right) := by
    rw [totalLength_append, totalLength_cons]
  have hrebounds : d.rebounds w = (!(w == x + (totalLength before + totalLength left) + injection.content.length &&
      hasRightCursorStop injection.cursorStops) && leftStopUnshared (injection :: left.reverse)) := by
    unfold rebounds
    rw [h.found]
    dsimp only
    rw [h.touchingFrom_eq]
    rfl
  by_cases hstay : w = x + (totalLength before + totalLength left) + injection.content.length ∧
      hasRightCursorStop injection.cursorStops = true
  · have hsame : d.normalizeOffsetInInputWithInjectionsAroundInjections w .none = w := by
      rw [normalize_of_found hsplit h.found rfl]
      rw [if_pos hstay]
      exact hstay.left.symm
    rw [hsame, hsame, hrebounds, hstay.right, ← hstay.left]
    refine ⟨by omega, by omega, by simp⟩
  · obtain ⟨passed, rest, hreverse, heq, hshared⟩ := h.touching.normalize_none h.found hstay
    have hlength : totalLength left = totalLength passed + totalLength rest := by
      rw [← totalLength_reverse left, hreverse, totalLength_append]
    have hleft : left = rest.reverse ++ passed.reverse := by
      rw [← reverse_append, ← hreverse, reverse_reverse]
    have hnot : (w == x + (totalLength before + totalLength left) + injection.content.length &&
        hasRightCursorStop injection.cursorStops) = false := by
      simpa using hstay
    rw [heq, hrebounds, hnot, hshared, Bool.not_false, Bool.true_and]
    refine ⟨by omega, by omega, ?_⟩
    have htouching := h.touching
    cases rest with
    | nil =>
      -- in front of the first text there is nothing to go to
      obtain ⟨first, group, hgroup⟩ : ∃ first group, left ++ injection :: right = first :: group := by
        cases left with
        | nil => exact ⟨injection, right, rfl⟩
        | cons first left => exact ⟨first, left ++ injection :: right, rfl⟩
      have hpos := h.nonempty first (by simp [hgroup])
      rw [hgroup] at htouching
      have hempty : Touching (d.injections.getD []) x before ([] ++ first :: group) after := htouching
      obtain ⟨passed', rest', hnil, heq', -⟩ := hempty.normalize_none htouching.found_start (by
        omega)
      obtain ⟨rfl, rfl⟩ := append_eq_nil_iff.mp (reverse_nil ▸ hnil).symm
      simp [heq']
    | cons p rest =>
      have hgroup : left ++ injection :: right = rest.reverse ++ p :: (passed.reverse ++ injection :: right) := by
        rw [hleft]
        simp
      have hpos := h.nonempty p (by simp [hgroup])
      rw [hgroup] at htouching
      have hn : x + (totalLength before + totalLength (p :: rest)) =
          x + (totalLength before + totalLength rest.reverse) + p.content.length := by
        rw [totalLength_cons, totalLength_reverse]
        omega
      have hfound := htouching.found (n := x + (totalLength before + totalLength (p :: rest))) (by omega) (Or.inr (by omega))
        (by omega)
      rw [head?_cons, Option.map_some, Option.getD_some]
      by_cases hright : hasRightCursorStop p.cursorStops = true
      · have hsplit' : d.injections.getD [] =
            (before ++ rest.reverse) ++ p :: ((passed.reverse ++ injection :: right) ++ after) := by
          rw [htouching.split]
          simp
        rw [normalize_of_found hsplit' hfound rfl]
        rw [if_pos ⟨hn, hright⟩, hright]
        exact ⟨fun _ => rfl, fun _ => hn.symm⟩
      · obtain ⟨passed', rest', hreverse', heq', -⟩ := htouching.normalize_none hfound fun hstay => hright hstay.right
        have hlength' : totalLength rest = totalLength passed' + totalLength rest' := by
          rw [← totalLength_reverse rest, ← totalLength_reverse rest.reverse, hreverse', totalLength_append]
        rw [heq', totalLength_cons, Bool.eq_false_iff.mpr hright]
        constructor
        · intro hsame
          omega
        · intro habsurd
          cases habsurd

end

end Found

/-! ## Round trips -/

def normalized (d : ModelLineProjectionData) (p : OutputPosition) (affinity : PositionAffinity) : OutputPosition :=
  d.normalizeOutputPosition p.outputLineIndex p.outputOffset affinity

def inputOffset (d : ModelLineProjectionData) (p : OutputPosition) : Nat :=
  d.translateToInputOffset p.outputLineIndex p.outputOffset

theorem normalized_cases (hd : d.WellFormed lineLength) {p : OutputPosition} (hp : d.IsPosition p) (affinity : PositionAffinity) :
    d.offsetOf (d.normalized p affinity) = d.normalizeOffsetInInputWithInjectionsAroundInjections (d.offsetOf p) affinity ∧
      (d.normalized (d.normalized p affinity) affinity = d.normalized p affinity ↔
        d.normalizeOffsetInInputWithInjectionsAroundInjections
            (d.normalizeOffsetInInputWithInjectionsAroundInjections (d.offsetOf p) affinity) affinity =
          d.normalizeOffsetInInputWithInjectionsAroundInjections (d.offsetOf p) affinity) := by
  have hnone : d.injections = none → ∀ w, d.normalizeOffsetInInputWithInjectionsAroundInjections w affinity = w := by
    intro hnull w
    refine normalize_not_found ?_ affinity
    rw [getInjectedTextAtOffset, hnull]
  have hunfold : ∀ q, d.normalized q affinity =
      if d.injections.isSome ∧ d.normalizeOffsetInInputWithInjectionsAroundInjections (d.offsetOf q) affinity ≠ d.offsetOf q then
        d.offsetInInputWithInjectionsToOutputPosition
          (d.normalizeOffsetInInputWithInjectionsAroundInjections (d.offsetOf q) affinity) affinity
      else d.normalizeAtBreak q.outputLineIndex q.outputOffset affinity := fun _ => rfl
  generalize hn : d.normalizeOffsetInInputWithInjectionsAroundInjections (d.offsetOf p) affinity = n
  by_cases hsame : n = d.offsetOf p
  · obtain ⟨hoffset, hagain⟩ := normalizeAtBreak_spec hd.increasing hp affinity
    have heq : d.normalized p affinity = d.normalizeAtBreak p.outputLineIndex p.outputOffset affinity := by
      rw [hunfold, hn, if_neg fun hne => hne.right hsame]
    have hoff : d.offsetOf (d.normalized p affinity) = n := by rw [heq, hoffset, hsame]
    have hfixed : d.normalizeOffsetInInputWithInjectionsAroundInjections n affinity = n := by
      rw [hsame, hn, hsame]
    refine ⟨hoff, iff_of_true ?_ hfixed⟩
    rw [hunfold, hoff, hfixed, if_neg fun hne => hne.right rfl, heq]
    exact hagain
  · have hsome : d.injections.isSome = true := by
      cases hinj : d.injections with
      | none => exact absurd (hn.symm.trans (hnone hinj _)) hsame
      | some injections => rfl
    obtain ⟨line, hline, hpos⟩ := exists_line hd.increasing hd.length_pos n affinity
    have heq : d.normalized p affinity = d.positionOn n line := by
      rw [hunfold, hn, if_pos ⟨hsome, hsame⟩, hpos]
    have hoff : d.offsetOf (d.normalized p affinity) = n := by rw [heq, offsetOf_positionOn hline.start_le]
    refine ⟨hoff, ?_⟩
    by_cases hfixed : d.normalizeOffsetInInputWithInjectionsAroundInjections n affinity = n
    · refine iff_of_true ?_ hfixed
      rw [hunfold, hoff, hfixed, if_neg fun hne => hne.right rfl, heq]
      exact hline.normalizeAtBreak
    · refine iff_of_false ?_ hfixed
      intro hagain
      obtain ⟨line', hline', hpos'⟩ := exists_line hd.increasing hd.length_pos
        (d.normalizeOffsetInInputWithInjectionsAroundInjections n affinity) affinity
      rw [hunfold, hoff, if_pos ⟨hsome, hfixed⟩, hpos'] at hagain
      have hoff' := congrArg d.offsetOf hagain
      rw [offsetOf_positionOn hline'.start_le, hoff] at hoff'
      exact hfixed hoff'

/-- The model offset of a position is kept, and normalizing again changes nothing unless the offset rebounds. -/
theorem normalize_spec (hd : d.WellFormed lineLength) (w : Nat) (affinity : PositionAffinity) :
    inputOffsetLoop (d.injections.getD []) (d.normalizeOffsetInInputWithInjectionsAroundInjections w affinity) =
        inputOffsetLoop (d.injections.getD []) w ∧
      (d.normalizeOffsetInInputWithInjectionsAroundInjections
          (d.normalizeOffsetInInputWithInjectionsAroundInjections w affinity) affinity =
        d.normalizeOffsetInInputWithInjectionsAroundInjections w affinity ↔ ¬ (affinity = .none ∧ d.rebounds w = true)) := by
  cases hfound : d.getInjectedTextAtOffset w with
  | none =>
    have hsame := normalize_not_found hfound affinity
    rw [hsame, hsame]
    refine ⟨rfl, iff_of_true rfl ?_⟩
    rintro ⟨-, hrebounds⟩
    rw [rebounds, hfound] at hrebounds
    cases hrebounds
  | some t =>
    obtain ⟨x, before, left, injection, right, after, h⟩ := exists_foundAt hd hfound
    have hbelow := h.touching.below_eq
    have hupTo := h.touching.upTo_eq
    have hstart := h.start
    have hstop := h.stop
    have htotal : totalLength (left ++ injection :: right) =
        totalLength left + (injection.content.length + totalLength right) := by
      rw [totalLength_append, totalLength_cons]
    have hinput : ∀ n, x + totalLength before ≤ n → n ≤ x + (totalLength before + totalLength (left ++ injection :: right)) →
        inputOffsetLoop (d.injections.getD []) n = x := by
      intro n hle hge
      exact inputOffsetLoop_eq hd.sorted (by omega) (by omega)
    have hw := hinput w (by omega) (by omega)
    by_cases hleft : affinity = .left ∨ affinity = .leftOfInjectedText
    · obtain ⟨heq, hfixed⟩ := h.normalize_left hleft
      rw [heq, hfixed, hw, hinput _ (Nat.le_refl _) (by omega)]
      refine ⟨rfl, iff_of_true rfl ?_⟩
      rintro ⟨rfl, -⟩
      rcases hleft with habsurd | habsurd <;> cases habsurd
    · by_cases hright : affinity = .right ∨ affinity = .rightOfInjectedText
      · obtain ⟨heq, hfixed⟩ := h.normalize_right hright
        rw [heq, hfixed, hw, hinput _ (by omega) (Nat.le_refl _)]
        refine ⟨rfl, iff_of_true rfl ?_⟩
        rintro ⟨rfl, -⟩
        rcases hright with habsurd | habsurd <;> cases habsurd
      · obtain rfl : affinity = .none := by
          cases affinity with
          | none => rfl
          | left => exact absurd (Or.inl rfl) hleft
          | right => exact absurd (Or.inl rfl) hright
          | leftOfInjectedText => exact absurd (Or.inr rfl) hleft
          | rightOfInjectedText => exact absurd (Or.inr rfl) hright
        obtain ⟨hle, hge, hfixed⟩ := h.normalize_none
        rw [hfixed, hw, hinput _ hle hge]
        refine ⟨rfl, ?_⟩
        rw [← Bool.not_eq_true]
        exact ⟨fun hnot hboth => hnot hboth.right, fun hnot hrebounds => hnot ⟨rfl, hrebounds⟩⟩

/-- Every offset of the line comes back from its output position, which lies inside its line.  A normalized position keeps the
model offset; normalizing it again changes nothing, except without a preference where the offset rebounds. -/
theorem projection_round_trip (d : ModelLineProjectionData) (lineLength : Nat) (hd : d.WellFormed lineLength) :
    (∀ o ≤ lineLength, ∀ affinity, d.IsPosition (d.translateToOutputPosition o affinity) ∧
      d.inputOffset (d.translateToOutputPosition o affinity) = o) ∧
    ∀ p, d.IsPosition p → ∀ affinity, d.inputOffset (d.normalized p affinity) = d.inputOffset p ∧
      (d.normalized (d.normalized p affinity) affinity = d.normalized p affinity ↔
        ¬ (affinity = .none ∧ d.rebounds (d.offsetOf p) = true)) := by
  refine ⟨fun o ho affinity => ?_, fun p hp affinity => ?_⟩
  · have hle := below_le_upTo (d.injections.getD []) o
    have hupTo := upTo_le (d.injections.getD []) o
    generalize hw : o + (if affinity = .right then upTo (d.injections.getD []) o else below (d.injections.getD []) o) = w
    have hoffset : d.translateToOutputPosition o affinity = d.offsetInInputWithInjectionsToOutputPosition w affinity := by
      have hloop := outputOffsetLoop_eq hd.sorted o affinity o
      rw [hw] at hloop
      unfold translateToOutputPosition
      rw [← hloop]
      cases d.injections <;> rfl
    have hbounds : o + below (d.injections.getD []) o ≤ w ∧ w ≤ o + upTo (d.injections.getD []) o := by
      split at hw <;> omega
    obtain ⟨line, hline, hpos⟩ := exists_line hd.increasing hd.length_pos w affinity
    rw [hoffset, hpos]
    refine ⟨hline.isPosition hd (by omega), ?_⟩
    rw [inputOffset, translateToInputOffset_eq, offsetOf_positionOn hline.start_le]
    exact inputOffsetLoop_eq hd.sorted hbounds.left hbounds.right
  · obtain ⟨hoff, hagain⟩ := normalized_cases hd hp affinity
    obtain ⟨hinput, hfixed⟩ := normalize_spec hd (d.offsetOf p) affinity
    refine ⟨?_, hagain.trans hfixed⟩
    rw [inputOffset, inputOffset, translateToInputOffset_eq, translateToInputOffset_eq, hoff, hinput]

/-- The line `xy` with two texts injected between `x` and `y`: the first has a cursor stop at its left end only. -/
def twoInjections : ModelLineProjectionData :=
  { injections := some [⟨1, [97], some .left⟩, ⟨1, [98, 99], some .both⟩], breakOffsets := [5], wrappedTextIndentLength := 0 }

theorem twoInjections_wellFormed : twoInjections.WellFormed 2 := ⟨by decide, by decide, by decide, by decide⟩

/-- In the middle of the second text: to its left end, and from there on to the left end of the first text. -/
theorem projection_round_trip_twoInjections :
    twoInjections.inputOffset (twoInjections.translateToOutputPosition 1 .right) = 1 :=
  ((projection_round_trip twoInjections 2 twoInjections_wellFormed).left 1 (by decide) .right).right

theorem not_normalized_idempotent :
    ¬ (∀ (d : ModelLineProjectionData) (lineLength : Nat), d.WellFormed lineLength → ∀ p, d.IsPosition p → ∀ affinity,
      d.normalized (d.normalized p affinity) affinity = d.normalized p affinity) := by
  intro h
  have hp : twoInjections.IsPosition ⟨0, 3⟩ := ⟨by decide, by decide, by decide⟩
  have hsame := h twoInjections 2 twoInjections_wellFormed ⟨0, 3⟩ hp .none
  exact absurd ((normalized_cases twoInjections_wellFormed hp .none).right.mp hsame) (by decide)

end ModelLineProjectionData

end TongjiCode.ViewModel.Projections
