import TongjiCode.MergeEditor.Mapping

/-!
# Alignments partition the base

The loop of `MappingAlignment.compute` takes the mappings of each source in their order.  While it collects a group, the
mappings of a source in the group and those to come are a chain that begins with the delta of the source at the start of the
group.
-/

open List

namespace TongjiCode.MergeEditor

namespace LineRange

theorem new_eq {start count : Int} (h : 0 ≤ count) :
    ∃ r, new start count = some r ∧ r.startLineNumber = start ∧ r.endLineNumberExclusive = start + count := by
  refine ⟨⟨start, count.toNat⟩, ?_, rfl, ?_⟩
  · unfold new
    rw [if_neg (by omega)]
  · unfold endLineNumberExclusive
    dsimp only
    omega

theorem start_le_end (r : LineRange) : r.startLineNumber ≤ r.endLineNumberExclusive := by
  unfold endLineNumberExclusive
  omega

theorem join_eq {r other : LineRange} (h : r.startLineNumber ≤ other.startLineNumber) :
    ∃ joined, r.join other = some joined ∧ joined.startLineNumber = r.startLineNumber ∧
      joined.endLineNumberExclusive = max r.endLineNumberExclusive other.endLineNumberExclusive := by
  have := r.start_le_end
  obtain ⟨joined, hjoined, hstart, hend⟩ := @new_eq (min r.startLineNumber other.startLineNumber)
    (max r.endLineNumberExclusive other.endLineNumberExclusive - r.startLineNumber) (by omega)
  exact ⟨joined, hjoined, by omega, by omega⟩

end LineRange

/-! ## Chains of mappings -/

/-- The mappings start at the line `pos` or behind it, with an unchanged line between two of them, and the gaps in front of
them are as long in the output as in the input; `delta` is how far the output is ahead in the first gap. -/
def ChainFrom (pos delta : Int) : List LineRangeMapping → Prop
  | [] => True
  | m :: ms =>
    pos ≤ m.inputRange.startLineNumber ∧ m.outputRange.startLineNumber = m.inputRange.startLineNumber + delta ∧
      ChainFrom (m.inputRange.endLineNumberExclusive + 1) m.resultingDeltaFromOriginalToModified ms

/-- How far the output is ahead behind the mappings. -/
def deltaAfter (delta : Int) (ms : List LineRangeMapping) : Int :=
  ms.foldl (fun _ m => m.resultingDeltaFromOriginalToModified) delta

variable {m : LineRangeMapping} {range : LineRange}

section Chains

variable {pos pos' delta : Int} {ms ms' : List LineRangeMapping}

theorem deltaAfter_append : deltaAfter delta (ms ++ ms') = deltaAfter (deltaAfter delta ms) ms' := by
  unfold deltaAfter
  rw [foldl_append]

theorem ChainFrom.mono (h : ChainFrom pos delta ms) (hpos : ∀ m ∈ ms, pos' ≤ m.inputRange.startLineNumber) :
    ChainFrom pos' delta ms := by
  cases ms with
  | nil => trivial
  | cons m ms => exact ⟨hpos m mem_cons_self, h.2⟩

theorem ChainFrom.start_le (h : ChainFrom pos delta ms) (hm : m ∈ ms) :
    pos ≤ m.inputRange.startLineNumber := by
  induction ms generalizing pos delta with
  | nil => cases hm
  | cons first ms ih =>
    obtain ⟨hstart, -, hrest⟩ := h
    rcases mem_cons.mp hm with rfl | hm
    · exact hstart
    · have := ih hrest hm
      have := first.inputRange.start_le_end
      omega

theorem ChainFrom.of_append (h : ChainFrom pos delta (ms ++ ms')) : ChainFrom pos (deltaAfter delta ms) ms' := by
  induction ms generalizing pos delta with
  | nil => exact h
  | cons m ms ih =>
    obtain ⟨hstart, -, hrest⟩ := h
    have hend := m.inputRange.start_le_end
    exact (ih hrest).mono fun m' hm' => by
      have := hrest.start_le (mem_append_right ms hm')
      omega

theorem ChainFrom.left (h : ChainFrom pos delta (ms ++ ms')) : ChainFrom pos delta ms := by
  induction ms generalizing pos delta with
  | nil => trivial
  | cons m ms ih => exact ⟨h.1, h.2.1, ih h.2.2⟩

theorem joinAll_eq (h : ChainFrom (m.inputRange.endLineNumberExclusive + 1) m.resultingDeltaFromOriginalToModified ms) :
    ∃ joined, m.joinAll ms = some joined ∧ joined.inputRange.startLineNumber = m.inputRange.startLineNumber ∧
      joined.outputRange.startLineNumber = m.outputRange.startLineNumber ∧
      joined.resultingDeltaFromOriginalToModified = deltaAfter m.resultingDeltaFromOriginalToModified ms ∧
      ∃ last ∈ m :: ms, joined.inputRange.endLineNumberExclusive = last.inputRange.endLineNumberExclusive := by
  induction ms generalizing m with
  | nil => exact ⟨m, rfl, rfl, rfl, rfl, m, mem_cons_self, rfl⟩
  | cons next ms ih =>
    obtain ⟨hstart, hout, hrest⟩ := h
    have hinput := m.inputRange.start_le_end
    have houtput := m.outputRange.start_le_end
    have hnextInput := next.inputRange.start_le_end
    have hnextOutput := next.outputRange.start_le_end
    have hdelta : m.resultingDeltaFromOriginalToModified =
      m.outputRange.endLineNumberExclusive - m.inputRange.endLineNumberExclusive := rfl
    obtain ⟨input, hjoinInput, hinputStart, hinputEnd⟩ := @LineRange.join_eq m.inputRange next.inputRange (by omega)
    obtain ⟨output, hjoinOutput, houtputStart, houtputEnd⟩ := @LineRange.join_eq m.outputRange next.outputRange (by omega)
    have hjoin : m.join next = some ⟨input, output⟩ := by
      unfold LineRangeMapping.join
      rw [hjoinInput, hjoinOutput]
    have hsame : (⟨input, output⟩ : LineRangeMapping).resultingDeltaFromOriginalToModified =
        next.resultingDeltaFromOriginalToModified := by
      unfold LineRangeMapping.resultingDeltaFromOriginalToModified
      dsimp only
      omega
    have hend : input.endLineNumberExclusive = next.inputRange.endLineNumberExclusive := by omega
    obtain ⟨joined, hjoined, hstart', hout', hdelta', last, hlast, hlastEnd⟩ := @ih ⟨input, output⟩ (by
      rw [hsame]
      show ChainFrom (input.endLineNumberExclusive + 1) _ ms
      rw [hend]
      exact hrest)
    refine ⟨joined, ?_, hstart'.trans hinputStart, hout'.trans houtputStart, ?_, ?_⟩
    · unfold LineRangeMapping.joinAll at hjoined ⊢
      rw [foldlM_cons, hjoin]
      exact hjoined
    · rw [hdelta', hsame]
      rfl
    · rcases mem_cons.mp hlast with rfl | hlast
      · exact ⟨next, mem_cons_of_mem _ mem_cons_self, hlastEnd.trans hend⟩
      · exact ⟨last, mem_cons_of_mem _ (mem_cons_of_mem _ hlast), hlastEnd⟩

/-- Extending a mapping keeps how far the output is ahead on both sides. -/
theorem extendInputRange_eq (hstart : range.startLineNumber ≤ m.inputRange.startLineNumber)
    (hend : m.inputRange.endLineNumberExclusive ≤ range.endLineNumberExclusive) :
    ∃ extended, m.extendInputRange range = some extended ∧
      extended.outputRange.startLineNumber =
        range.startLineNumber + (m.outputRange.startLineNumber - m.inputRange.startLineNumber) ∧
      extended.outputRange.endLineNumberExclusive =
        range.endLineNumberExclusive + m.resultingDeltaFromOriginalToModified := by
  unfold LineRangeMapping.extendInputRange LineRangeMapping.resultingDeltaFromOriginalToModified
  have hcontains : range.containsRange m.inputRange = true := by
    unfold LineRange.containsRange
    simp only [Bool.and_eq_true, decide_eq_true_eq]
    exact ⟨hstart, hend⟩
  have houtput : m.outputRange.endLineNumberExclusive = m.outputRange.startLineNumber + m.outputRange.lineCount := rfl
  rw [hcontains]
  dsimp only
  obtain ⟨output, hnew, houtStart, houtEnd⟩ := @LineRange.new_eq
    (m.outputRange.startLineNumber + (range.startLineNumber - m.inputRange.startLineNumber))
    (m.outputRange.lineCount - (range.startLineNumber - m.inputRange.startLineNumber) +
      (range.endLineNumberExclusive - m.inputRange.endLineNumberExclusive)) (by omega)
  rw [hnew]
  exact ⟨⟨range, output⟩, rfl, by dsimp only; omega, by dsimp only; omega⟩

end Chains

/-! ## The loop -/

variable {delta : Int}

namespace MappingAlignment

variable {T : Type} {mapping : T → LineRangeMapping}

/-- What a side is during the loop: the group starts at the line `start`, `delta` is how far the output is ahead there, and
`rest` are the mappings to come. -/
structure Collects (mapping : T → LineRangeMapping) (side : Side T) (range : LineRange) (delta : Int) (rest : List T) :
    Prop where
  chain : ChainFrom range.startLineNumber delta ((side.currentDiffs ++ rest).map mapping)
  delta : side.deltaFromBaseToInput = deltaAfter delta (side.currentDiffs.map mapping)
  inside : ∀ diff ∈ side.currentDiffs, (mapping diff).inputRange.endLineNumberExclusive ≤ range.endLineNumberExclusive

variable {side : Side T} {rest : List T}

theorem Side.outputRange_eq (h : Collects mapping side range delta rest) :
    ∃ output, side.outputRange mapping range = some output ∧ output.startLineNumber = range.startLineNumber + delta ∧
      output.endLineNumberExclusive = range.endLineNumberExclusive + side.deltaFromBaseToInput := by
  obtain ⟨hchain, hdelta, hinside⟩ := h
  rw [map_append] at hchain
  have hchain := hchain.left
  unfold Side.outputRange
  cases hcase : side.currentDiffs with
  | nil =>
    rw [hcase] at hdelta
    obtain ⟨extended, hextended, hstart, hend⟩ := @extendInputRange_eq ⟨range, range.delta side.deltaFromBaseToInput⟩ range
      (Int.le_refl _) (Int.le_refl _)
    refine ⟨extended.outputRange, ?_, ?_, ?_⟩
    · simp only [hextended, Option.bind_eq_bind, Option.bind_some]
      rfl
    · rw [hstart, hdelta]
      show range.startLineNumber + (range.startLineNumber + delta - range.startLineNumber) = _
      omega
    · rw [hend]
      unfold LineRangeMapping.resultingDeltaFromOriginalToModified LineRange.delta LineRange.endLineNumberExclusive
      dsimp only
      omega
  | cons first diffs =>
    rw [hcase] at hchain hdelta hinside
    obtain ⟨hstart, hout, hrest⟩ := hchain
    obtain ⟨joined, hjoined, hjoinedStart, hjoinedOut, hjoinedDelta, last, hlast, hlastEnd⟩ := joinAll_eq hrest
    have hlastInside : last.inputRange.endLineNumberExclusive ≤ range.endLineNumberExclusive := by
      rw [← map_cons] at hlast
      obtain ⟨diff, hdiff, rfl⟩ := mem_map.mp hlast
      exact hinside diff hdiff
    obtain ⟨extended, hextended, hextStart, hextEnd⟩ := @extendInputRange_eq joined range (by omega) (by omega)
    refine ⟨extended.outputRange, ?_, ?_, ?_⟩
    · simp only [hjoined, hextended, Option.bind_eq_bind, Option.bind_some]
      rfl
    · rw [hextStart]
      omega
    · rw [hextEnd, hjoinedDelta, hdelta]
      rfl

/-- A side of an alignment. -/
structure Part (T : Type) where
  inputRange : LineRange
  outputRange : LineRange
  lineMappings : List T

def part1 (a : MappingAlignment T) : Part T := ⟨a.inputRange, a.output1Range, a.output1LineMappings⟩

def part2 (a : MappingAlignment T) : Part T := ⟨a.inputRange, a.output2Range, a.output2LineMappings⟩

/-- The alignments start at the line `pos` or behind it and do not touch, the gaps in front of them are as long in the output
as in the input, and each one contains its mappings. -/
def AlignedFrom (mapping : T → LineRangeMapping) (pos delta : Int) : List (Part T) → Prop
  | [] => True
  | part :: parts =>
    pos ≤ part.inputRange.startLineNumber ∧
      part.outputRange.startLineNumber = part.inputRange.startLineNumber + delta ∧
      ChainFrom part.inputRange.startLineNumber delta (part.lineMappings.map mapping) ∧
      (∀ diff ∈ part.lineMappings,
        (mapping diff).inputRange.endLineNumberExclusive ≤ part.inputRange.endLineNumberExclusive) ∧
      part.outputRange.endLineNumberExclusive =
        part.inputRange.endLineNumberExclusive + deltaAfter delta (part.lineMappings.map mapping) ∧
      AlignedFrom mapping (part.inputRange.endLineNumberExclusive + 1) (deltaAfter delta (part.lineMappings.map mapping)) parts

theorem AlignedFrom.mono {pos pos' delta : Int} {parts : List (Part T)} (h : AlignedFrom mapping pos delta parts)
    (hpos : pos' ≤ pos) : AlignedFrom mapping pos' delta parts := by
  cases parts with
  | nil => trivial
  | cons part parts => exact ⟨Int.le_trans hpos h.1, h.2⟩

/-- The mappings of the first source. -/
def diffs1 (combinedDiffs : List (CombinedDiff T)) : List T :=
  combinedDiffs.filterMap fun
    | .first diff => some diff
    | .second _ => none

/-- The mappings of the second source. -/
def diffs2 (combinedDiffs : List (CombinedDiff T)) : List T :=
  combinedDiffs.filterMap fun
    | .first _ => none
    | .second diff => some diff

variable {joined : LineRange} {diff : T}

theorem Collects.push (h : Collects mapping side range delta (diff :: rest))
    (hstart : joined.startLineNumber = range.startLineNumber)
    (hend : range.endLineNumberExclusive ≤ joined.endLineNumberExclusive)
    (hdiff : (mapping diff).inputRange.endLineNumberExclusive ≤ joined.endLineNumberExclusive) :
    Collects mapping (side.push mapping diff) joined delta rest := by
  unfold Side.push
  refine ⟨?_, ?_, ?_⟩
  · dsimp only
    rw [hstart, append_assoc]
    exact h.chain
  · dsimp only
    rw [map_append, deltaAfter_append]
    rfl
  · intro other hother
    rcases mem_append.mp hother with hother | hother
    · exact Int.le_trans (h.inside other hother) hend
    · rw [mem_singleton.mp hother]
      exact hdiff

theorem Collects.widen (h : Collects mapping side range delta rest)
    (hstart : joined.startLineNumber = range.startLineNumber)
    (hend : range.endLineNumberExclusive ≤ joined.endLineNumberExclusive) : Collects mapping side joined delta rest := by
  refine ⟨?_, h.delta, fun diff hdiff => Int.le_trans (h.inside diff hdiff) hend⟩
  rw [hstart]
  exact h.chain

theorem Collects.reset {side : Side T} {range next : LineRange} {delta : Int} {rest : List T}
    (h : Collects mapping side range delta rest)
    (hnext : ∀ diff ∈ rest, next.startLineNumber ≤ (mapping diff).inputRange.startLineNumber) :
    Collects mapping side.reset next side.deltaFromBaseToInput rest := by
  refine ⟨?_, rfl, fun diff hdiff => nomatch hdiff⟩
  have hchain := h.chain
  rw [map_append] at hchain
  have hchain := hchain.of_append
  rw [← h.delta] at hchain
  refine hchain.mono fun m hm => ?_
  obtain ⟨diff, hdiff, rfl⟩ := mem_map.mp hm
  exact hnext diff hdiff

/-- The mappings that are left come in the order of their starts. -/
def Sorted (mapping : T → LineRangeMapping) (combinedDiffs : List (CombinedDiff T)) : Prop :=
  combinedDiffs.Pairwise fun a b => (mapping a.diff).inputRange.startLineNumber ≤ (mapping b.diff).inputRange.startLineNumber

variable {combinedDiffs : List (CombinedDiff T)}

theorem mem_diffs1 (h : diff ∈ diffs1 combinedDiffs) :
    ∃ d ∈ combinedDiffs, d.diff = diff := by
  obtain ⟨d, hd, heq⟩ := mem_filterMap.mp h
  cases d with
  | first diff' => exact ⟨_, hd, Option.some.inj heq⟩
  | second diff' => cases heq

theorem mem_diffs2 (h : diff ∈ diffs2 combinedDiffs) :
    ∃ d ∈ combinedDiffs, d.diff = diff := by
  obtain ⟨d, hd, heq⟩ := mem_filterMap.mp h
  cases d with
  | first diff' => cases heq
  | second diff' => exact ⟨_, hd, Option.some.inj heq⟩

theorem start_le_diffs {d : CombinedDiff T} (hlater : ∀ other ∈ combinedDiffs,
      (mapping d.diff).inputRange.startLineNumber ≤ (mapping other.diff).inputRange.startLineNumber) :
    (∀ diff ∈ diffs1 (d :: combinedDiffs),
        (mapping d.diff).inputRange.startLineNumber ≤ (mapping diff).inputRange.startLineNumber) ∧
      ∀ diff ∈ diffs2 (d :: combinedDiffs),
        (mapping d.diff).inputRange.startLineNumber ≤ (mapping diff).inputRange.startLineNumber := by
  have hnext : ∀ other ∈ d :: combinedDiffs,
      (mapping d.diff).inputRange.startLineNumber ≤ (mapping other.diff).inputRange.startLineNumber :=
    forall_mem_cons.mpr ⟨Int.le_refl _, hlater⟩
  refine ⟨fun diff hdiff => ?_, fun diff hdiff => ?_⟩
  · obtain ⟨other, hother, rfl⟩ := mem_diffs1 hdiff
    exact hnext other hother
  · obtain ⟨other, hother, rfl⟩ := mem_diffs2 hdiff
    exact hnext other hother

def EndsIn (mapping : T → LineRangeMapping) (diffs1 diffs2 : List T) (range : LineRange) : Prop :=
  ∃ diff, (diff ∈ diffs1 ∨ diff ∈ diffs2) ∧
    (mapping diff).inputRange.endLineNumberExclusive = range.endLineNumberExclusive

/-- What the loop gives. -/
structure Result (mapping : T → LineRangeMapping) (pos delta1 delta2 : Int) (diffs1 diffs2 : List T)
    (alignments : List (MappingAlignment T)) : Prop where
  aligned1 : AlignedFrom mapping pos delta1 (alignments.map part1)
  aligned2 : AlignedFrom mapping pos delta2 (alignments.map part2)
  all1 : alignments.flatMap output1LineMappings = diffs1
  all2 : alignments.flatMap output2LineMappings = diffs2
  ends : ∀ a ∈ alignments, EndsIn mapping a.output1LineMappings a.output2LineMappings a.inputRange

theorem Collects.aligned {range output : LineRange} {parts : List (Part T)} (h : Collects mapping side range delta rest)
    (hstart : output.startLineNumber = range.startLineNumber + delta)
    (hend : output.endLineNumberExclusive = range.endLineNumberExclusive + side.deltaFromBaseToInput)
    (hparts : AlignedFrom mapping (range.endLineNumberExclusive + 1) side.deltaFromBaseToInput parts) :
    AlignedFrom mapping range.startLineNumber delta (⟨range, output, side.currentDiffs⟩ :: parts) := by
  have hchain := h.chain
  rw [map_append] at hchain
  rw [h.delta] at hend hparts
  exact ⟨Int.le_refl _, hstart, hchain.left, h.inside, hend, hparts⟩

theorem pushed_spec {side1 side2 : Side T} {delta1 delta2 : Int} {rest1 rest2 : List T}
    (h1 : Collects mapping side1 range delta1 rest1) (h2 : Collects mapping side2 range delta2 rest2)
    (hends : EndsIn mapping side1.currentDiffs side2.currentDiffs range) :
    ∃ alignment, pushed mapping side1 side2 range = some alignment ∧
      ∀ alignments, Result mapping (range.endLineNumberExclusive + 1) side1.deltaFromBaseToInput side2.deltaFromBaseToInput
          rest1 rest2 alignments →
        Result mapping range.startLineNumber delta1 delta2 (side1.currentDiffs ++ rest1) (side2.currentDiffs ++ rest2)
          (alignment :: alignments) := by
  obtain ⟨output1, houtput1, hstart1, hend1⟩ := Side.outputRange_eq h1
  obtain ⟨output2, houtput2, hstart2, hend2⟩ := Side.outputRange_eq h2
  refine ⟨⟨range, output1, side1.currentDiffs, output2, side2.currentDiffs⟩, ?_, fun alignments h => ⟨?_, ?_, ?_, ?_, ?_⟩⟩
  · unfold pushed
    rw [houtput1, houtput2]
    rfl
  · exact h1.aligned hstart1 hend1 h.aligned1
  · exact h2.aligned hstart2 hend2 h.aligned2
  · rw [flatMap_cons, h.all1]
  · rw [flatMap_cons, h.all2]
  · intro a ha
    rcases mem_cons.mp ha with rfl | ha
    · exact hends
    · exact h.ends a ha

theorem EndsIn.join {diffs1 diffs2 diffs1' diffs2' : List T} (h : EndsIn mapping diffs1 diffs2 range)
    (hend : joined.endLineNumberExclusive = max range.endLineNumberExclusive (mapping diff).inputRange.endLineNumberExclusive)
    (hkept : ∀ other, other ∈ diffs1 ∨ other ∈ diffs2 → other ∈ diffs1' ∨ other ∈ diffs2')
    (hadded : diff ∈ diffs1' ∨ diff ∈ diffs2') : EndsIn mapping diffs1' diffs2' joined := by
  obtain ⟨last, hlast, hlastEnd⟩ := h
  by_cases hle : (mapping diff).inputRange.endLineNumberExclusive ≤ range.endLineNumberExclusive
  · exact ⟨last, hkept last hlast, by omega⟩
  · exact ⟨diff, hadded, by omega⟩

theorem computeLoop_spec {side1 side2 : Side T} {range : LineRange} {delta1 delta2 : Int}
    (h1 : Collects mapping side1 range delta1 (diffs1 combinedDiffs))
    (h2 : Collects mapping side2 range delta2 (diffs2 combinedDiffs))
    (hends : EndsIn mapping side1.currentDiffs side2.currentDiffs range) (hsorted : Sorted mapping combinedDiffs)
    (hstart : ∀ d ∈ combinedDiffs, range.startLineNumber ≤ (mapping d.diff).inputRange.startLineNumber) :
    ∃ alignments, computeLoop mapping side1 side2 (some range) combinedDiffs = some alignments ∧
      Result mapping range.startLineNumber delta1 delta2 (side1.currentDiffs ++ diffs1 combinedDiffs)
        (side2.currentDiffs ++ diffs2 combinedDiffs) alignments := by
  induction combinedDiffs generalizing side1 side2 range delta1 delta2 with
  | nil =>
    obtain ⟨alignment, hpushed, hresult⟩ := pushed_spec h1 h2 hends
    refine ⟨[alignment], ?_, hresult [] ⟨trivial, trivial, rfl, rfl, fun _ ha => nomatch ha⟩⟩
    unfold computeLoop
    dsimp only
    rw [hpushed]
    rfl
  | cons d combinedDiffs ih =>
    have hsorted' := (pairwise_cons.mp hsorted).2
    have hlater := (pairwise_cons.mp hsorted).1
    have hd := hstart d mem_cons_self
    have hdEnd := (mapping d.diff).inputRange.start_le_end
    unfold computeLoop
    dsimp only
    by_cases htouches : range.touches (mapping d.diff).inputRange = true
    · rw [if_pos htouches]
      obtain ⟨joined, hjoined, hjoinedStart, hjoinedEnd⟩ := LineRange.join_eq hd
      rw [hjoined, ← hjoinedStart]
      have hstart' : ∀ d ∈ combinedDiffs, joined.startLineNumber ≤ (mapping d.diff).inputRange.startLineNumber := by
        rw [hjoinedStart]
        exact fun d hd => hstart d (mem_cons_of_mem _ hd)
      cases d with
      | first diff =>
        have hends' : EndsIn mapping (side1.push mapping diff).currentDiffs side2.currentDiffs joined :=
          hends.join hjoinedEnd (fun other hother => hother.imp_left (mem_append_left _))
            (.inl (mem_append_right _ mem_cons_self))
        obtain ⟨alignments, hloop, hresult⟩ := ih (h1.push hjoinedStart (by omega) (by rw [hjoinedEnd]; exact Int.le_max_right _ _))
          (h2.widen hjoinedStart (by omega)) hends' hsorted' hstart'
        refine ⟨alignments, hloop, ?_⟩
        unfold Side.push at hresult
        rw [append_assoc] at hresult
        exact hresult
      | second diff =>
        have hends' : EndsIn mapping side1.currentDiffs (side2.push mapping diff).currentDiffs joined :=
          hends.join hjoinedEnd (fun other hother => hother.imp_right (mem_append_left _))
            (.inr (mem_append_right _ mem_cons_self))
        obtain ⟨alignments, hloop, hresult⟩ := ih (h1.widen hjoinedStart (by omega))
          (h2.push hjoinedStart (by omega) (by rw [hjoinedEnd]; exact Int.le_max_right _ _)) hends' hsorted' hstart'
        refine ⟨alignments, hloop, ?_⟩
        unfold Side.push at hresult
        rw [append_assoc] at hresult
        exact hresult
    · rw [if_neg htouches]
      obtain ⟨alignment, hpushed, hresult⟩ := pushed_spec h1 h2 hends
      have hbehind : range.endLineNumberExclusive + 1 ≤ (mapping d.diff).inputRange.startLineNumber := by
        unfold LineRange.touches at htouches
        simp only [Bool.and_eq_true, decide_eq_true_eq, not_and] at htouches
        omega
      obtain ⟨hnext1, hnext2⟩ := start_le_diffs hlater
      have hreset1 := @Collects.reset _ _ _ _ (mapping d.diff).inputRange _ _ h1 hnext1
      have hreset2 := @Collects.reset _ _ _ _ (mapping d.diff).inputRange _ _ h2 hnext2
      rw [hpushed]
      cases d with
      | first diff =>
        obtain ⟨alignments, hloop, hrest⟩ := ih (hreset1.push rfl (Int.le_refl _) (Int.le_refl _)) hreset2
          ⟨diff, .inl mem_cons_self, rfl⟩ hsorted' hlater
        refine ⟨alignment :: alignments, ?_, hresult alignments ?_⟩
        · simp only [Option.bind_eq_bind, Option.bind_some, hloop]
          rfl
        · exact ⟨hrest.aligned1.mono hbehind, hrest.aligned2.mono hbehind, hrest.all1, hrest.all2, hrest.ends⟩
      | second diff =>
        obtain ⟨alignments, hloop, hrest⟩ := ih hreset1 (hreset2.push rfl (Int.le_refl _) (Int.le_refl _))
          ⟨diff, .inr mem_cons_self, rfl⟩ hsorted' hlater
        refine ⟨alignment :: alignments, ?_, hresult alignments ?_⟩
        · simp only [Option.bind_eq_bind, Option.bind_some, hloop]
          rfl
        · exact ⟨hrest.aligned1.mono hbehind, hrest.aligned2.mono hbehind, hrest.all1, hrest.all2, hrest.ends⟩

/-! ## Sorting -/

variable (a b : List (CombinedDiff T))

theorem diffs1_append : diffs1 (a ++ b) = diffs1 a ++ diffs1 b := filterMap_append

theorem diffs2_append : diffs2 (a ++ b) = diffs2 a ++ diffs2 b := filterMap_append

variable (l : List T)

theorem diffs1_first : diffs1 (l.map CombinedDiff.first) = l := by
  unfold diffs1
  rw [filterMap_map]
  exact filterMap_some

theorem diffs2_second : diffs2 (l.map CombinedDiff.second) = l := by
  unfold diffs2
  rw [filterMap_map]
  exact filterMap_some

theorem diffs1_second : diffs1 (l.map CombinedDiff.second) = [] := by
  unfold diffs1
  rw [filterMap_map]
  exact filterMap_eq_nil_iff.mpr fun _ _ => rfl

theorem diffs2_first : diffs2 (l.map CombinedDiff.first) = [] := by
  unfold diffs2
  rw [filterMap_map]
  exact filterMap_eq_nil_iff.mpr fun _ _ => rfl

def Ordered (mapping : T → LineRangeMapping) (l : List T) : Prop :=
  l.Pairwise fun a b => (mapping a).inputRange.startLineNumber ≤ (mapping b).inputRange.startLineNumber

theorem sorted_combine (l1 l2 : List T) : Sorted mapping (combine mapping l1 l2) := by
  let r (a b : CombinedDiff T) : Prop := (mapping a.diff).inputRange.startLineNumber ≤ (mapping b.diff).inputRange.startLineNumber
  exact pairwise_insertionSort r _

/-- The sort is stable, so the mappings of one source, which `pick` gives, stay in their order. -/
theorem pick_combine {l l1 l2 : List T} {pick : CombinedDiff T → Option T} (source : T → CombinedDiff T)
    (h : (l.map source).Pairwise fun a b => (mapping a.diff).inputRange.startLineNumber ≤ (mapping b.diff).inputRange.startLineNumber)
    (hsource : (l.map source).Sublist (l1.map CombinedDiff.first ++ l2.map CombinedDiff.second))
    (hpick : (l.map source).filterMap pick = l)
    (hall : (l1.map CombinedDiff.first ++ l2.map CombinedDiff.second).filterMap pick = l) :
    (combine mapping l1 l2).filterMap pick = l := by
  have hperm : ((combine mapping l1 l2).filterMap pick).Perm l :=
    ((perm_insertionSort _ _).filterMap pick).trans (List.Perm.of_eq hall)
  have hsublist : ((l.map source).filterMap pick).Sublist ((combine mapping l1 l2).filterMap pick) :=
    (sublist_insertionSort h hsource).filterMap pick
  rw [hpick] at hsublist
  exact (hsublist.eq_of_length hperm.length_eq.symm).symm

theorem diffs1_combine {l1 : List T} (h : Ordered mapping l1) (l2 : List T) : diffs1 (combine mapping l1 l2) = l1 := by
  refine pick_combine .first (pairwise_map.mpr h) (sublist_append_left _ _) (diffs1_first l1) ?_
  show diffs1 (l1.map CombinedDiff.first ++ l2.map CombinedDiff.second) = l1
  rw [diffs1_append, diffs1_first, diffs1_second, append_nil]

theorem diffs2_combine (l1 : List T) {l2 : List T} (h : Ordered mapping l2) : diffs2 (combine mapping l1 l2) = l2 := by
  refine pick_combine .second (pairwise_map.mpr h) (sublist_append_right _ _) (diffs2_second l2) ?_
  show diffs2 (l1.map CombinedDiff.first ++ l2.map CombinedDiff.second) = l2
  rw [diffs2_append, diffs2_first, diffs2_second, nil_append]

end MappingAlignment

/-- A list of mappings from a base to an output: sorted, with an unchanged line between two mappings, and with gaps, also in
front of the first mapping, that are as long in the output as in the base. -/
def Valid (ms : List LineRangeMapping) : Prop :=
  (∀ m, ms.head? = some m → m.outputRange.startLineNumber = m.inputRange.startLineNumber) ∧
    ms.IsChain fun m1 m2 =>
      m1.inputRange.endLineNumberExclusive < m2.inputRange.startLineNumber ∧
        m2.outputRange.startLineNumber - m1.outputRange.endLineNumberExclusive =
          m2.inputRange.startLineNumber - m1.inputRange.endLineNumberExclusive

variable {ms : List LineRangeMapping}

theorem chainFrom_of_isChain
    (h : (m :: ms).IsChain fun m1 m2 => m1.inputRange.endLineNumberExclusive < m2.inputRange.startLineNumber ∧ m2.outputRange.startLineNumber - m1.outputRange.endLineNumberExclusive = m2.inputRange.startLineNumber - m1.inputRange.endLineNumberExclusive) :
    ChainFrom (m.inputRange.endLineNumberExclusive + 1) m.resultingDeltaFromOriginalToModified ms := by
  induction ms generalizing m with
  | nil => trivial
  | cons next ms ih =>
    obtain ⟨⟨hlt, hgap⟩, hrest⟩ := isChain_cons_cons.mp h
    refine ⟨by omega, ?_, ih hrest⟩
    unfold LineRangeMapping.resultingDeltaFromOriginalToModified
    omega

variable {pos : Int}

theorem Valid.chainFrom (h : Valid ms) (hpos : ∀ m ∈ ms, pos ≤ m.inputRange.startLineNumber) : ChainFrom pos 0 ms := by
  cases ms with
  | nil => trivial
  | cons m ms => exact ⟨hpos m mem_cons_self, by rw [h.1 m rfl]; omega, chainFrom_of_isChain h.2⟩

theorem ChainFrom.pairwise (h : ChainFrom pos delta ms) :
    ms.Pairwise fun m1 m2 => m1.inputRange.startLineNumber ≤ m2.inputRange.startLineNumber := by
  induction ms generalizing pos delta with
  | nil => exact List.Pairwise.nil
  | cons m ms ih =>
    refine pairwise_cons.mpr ⟨fun m' hm' => ?_, ih h.2.2⟩
    have := h.2.2.start_le hm'
    have := m.inputRange.start_le_end
    omega

theorem Valid.ordered (h : Valid ms) :
    ms.Pairwise fun m1 m2 => m1.inputRange.startLineNumber ≤ m2.inputRange.startLineNumber := by
  cases ms with
  | nil => exact List.Pairwise.nil
  | cons m ms =>
    have hchain : ChainFrom m.inputRange.startLineNumber 0 (m :: ms) :=
      ⟨Int.le_refl _, by rw [h.1 m rfl]; omega, chainFrom_of_isChain h.2⟩
    exact hchain.pairwise

namespace MappingAlignment

variable {T : Type} {mapping : T → LineRangeMapping}

theorem compute_spec {l1 l2 : List T} (h1 : Valid (l1.map mapping)) (h2 : Valid (l2.map mapping))
    (hpos : ∀ diff, diff ∈ l1 ∨ diff ∈ l2 → pos ≤ (mapping diff).inputRange.startLineNumber) :
    ∃ alignments, compute mapping l1 l2 = some alignments ∧ Result mapping pos 0 0 l1 l2 alignments := by
  have hsorted : Sorted mapping (combine mapping l1 l2) := sorted_combine l1 l2
  have hordered : ∀ l : List T, Valid (l.map mapping) → Ordered mapping l := by
    intro l h
    have := h.ordered
    rw [pairwise_map] at this
    exact this
  have hdiffs1 : diffs1 (combine mapping l1 l2) = l1 := diffs1_combine (hordered l1 h1) l2
  have hdiffs2 : diffs2 (combine mapping l1 l2) = l2 := diffs2_combine l1 (hordered l2 h2)
  have hmem : ∀ d ∈ combine mapping l1 l2, d.diff ∈ l1 ∨ d.diff ∈ l2 := by
    intro d hd
    cases d with
    | first diff =>
      rw [← hdiffs1]
      exact .inl (mem_filterMap.mpr ⟨_, hd, rfl⟩)
    | second diff =>
      rw [← hdiffs2]
      exact .inr (mem_filterMap.mpr ⟨_, hd, rfl⟩)
  unfold compute
  generalize combine mapping l1 l2 = combinedDiffs at hsorted hdiffs1 hdiffs2 hmem
  subst hdiffs1 hdiffs2
  cases combinedDiffs with
  | nil => exact ⟨[], rfl, trivial, trivial, rfl, rfl, fun _ ha => nomatch ha⟩
  | cons d combinedDiffs =>
    obtain ⟨hlater, hsorted'⟩ := pairwise_cons.mp hsorted
    obtain ⟨hnext1, hnext2⟩ := start_le_diffs hlater
    have hcollects1 : Collects mapping {} (mapping d.diff).inputRange 0 (diffs1 (d :: combinedDiffs)) := by
      refine ⟨h1.chainFrom fun m hm => ?_, rfl, fun diff hdiff => nomatch hdiff⟩
      obtain ⟨diff, hdiff, rfl⟩ := mem_map.mp hm
      exact hnext1 diff hdiff
    have hcollects2 : Collects mapping {} (mapping d.diff).inputRange 0 (diffs2 (d :: combinedDiffs)) := by
      refine ⟨h2.chainFrom fun m hm => ?_, rfl, fun diff hdiff => nomatch hdiff⟩
      obtain ⟨diff, hdiff, rfl⟩ := mem_map.mp hm
      exact hnext2 diff hdiff
    have hfirst : pos ≤ (mapping d.diff).inputRange.startLineNumber := hpos _ (hmem d mem_cons_self)
    cases d with
    | first diff =>
      have hother : Collects mapping {} (mapping diff).inputRange 0 (diffs2 combinedDiffs) := hcollects2
      obtain ⟨alignments, hloop, hresult⟩ := computeLoop_spec (hcollects1.push rfl (Int.le_refl _) (Int.le_refl _)) hother
        ⟨diff, .inl mem_cons_self, rfl⟩ hsorted' hlater
      exact ⟨alignments, hloop, hresult.aligned1.mono hfirst, hresult.aligned2.mono hfirst, hresult.all1, hresult.all2,
        hresult.ends⟩
    | second diff =>
      have hother : Collects mapping {} (mapping diff).inputRange 0 (diffs1 combinedDiffs) := hcollects1
      obtain ⟨alignments, hloop, hresult⟩ := computeLoop_spec hother (hcollects2.push rfl (Int.le_refl _) (Int.le_refl _))
        ⟨diff, .inr mem_cons_self, rfl⟩ hsorted' hlater
      exact ⟨alignments, hloop, hresult.aligned1.mono hfirst, hresult.aligned2.mono hfirst, hresult.all1, hresult.all2,
        hresult.ends⟩

end MappingAlignment

end TongjiCode.MergeEditor
