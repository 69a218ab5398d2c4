import TongjiCode.MergeEditor.Alignments

/-!
# Mappings and documents

A document is a list of lines.  A list of mappings describes a document if the base with the input lines of each mapping
replaced by its output lines is the document.  Alignments describe the documents that the mappings they contain describe.
-/

open List

namespace TongjiCode.MergeEditor

section Slices

variable {α : Type} {lines : List α} {a b c : Int}

/-- The lines from the line number `start` to the line number `stop`, which is excluded. -/
def slice (lines : List α) (start stop : Int) : List α := (lines.drop (start - 1).toNat).take (stop - start).toNat

theorem slice_append_drop (ha : 1 ≤ a) (hab : a ≤ b) :
    slice lines a b ++ lines.drop (b - 1).toNat = lines.drop (a - 1).toNat := by
  unfold slice
  have hsplit : (b - 1).toNat = (a - 1).toNat + (b - a).toNat := by omega
  rw [hsplit, ← drop_drop, take_append_drop]

theorem slice_append (ha : 1 ≤ a) (hab : a ≤ b) (hbc : b ≤ c) : slice lines a b ++ slice lines b c = slice lines a c := by
  unfold slice
  have hdrop : (b - 1).toNat = (a - 1).toNat + (b - a).toNat := by omega
  have htake : (c - a).toNat = (b - a).toNat + (c - b).toNat := by omega
  rw [hdrop, htake, ← drop_drop, ← take_add]

theorem length_slice (ha : 1 ≤ a) (hab : a ≤ b) (hb : b ≤ lines.length + 1) : (slice lines a b).length = (b - a).toNat := by
  unfold slice
  rw [length_take, length_drop]
  omega

end Slices

/-! ## Replacing lines -/

section Replacing

variable {α : Type}

/-- The base from the line `pos` on, with the input lines of the mappings replaced by their output lines. -/
def replaceFrom (base doc : List α) (pos : Int) : List LineRangeMapping → List α
  | [] => base.drop (pos - 1).toNat
  | m :: ms =>
    slice base pos m.inputRange.startLineNumber ++
      (slice doc m.outputRange.startLineNumber m.outputRange.endLineNumberExclusive ++
        replaceFrom base doc m.inputRange.endLineNumberExclusive ms)

/-- The base with the input lines of the mappings replaced by their output lines. -/
def replaceLines (base doc : List α) (ms : List LineRangeMapping) : List α := replaceFrom base doc 1 ms

/-- The mappings describe the document: they are about lines of the base and of the document, and replacing gives the
document. -/
def Describes (base doc : List α) (ms : List LineRangeMapping) : Prop :=
  (∀ m ∈ ms, 1 ≤ m.inputRange.startLineNumber ∧ m.inputRange.endLineNumberExclusive ≤ base.length + 1 ∧
    m.outputRange.endLineNumberExclusive ≤ doc.length + 1) ∧ replaceLines base doc ms = doc

/-- From the line `pos` on, where the document is `delta` lines ahead, replacing gives the document. -/
def Matches (base doc : List α) (pos delta : Int) (ms : List LineRangeMapping) : Prop :=
  replaceFrom base doc pos ms = doc.drop (pos + delta - 1).toNat

variable {base doc : List α} {pos pos' delta : Int} {ms : List LineRangeMapping}

theorem replaceFrom_split (hpos : 1 ≤ pos) (hle : pos ≤ pos') (hstart : ∀ m ∈ ms, pos' ≤ m.inputRange.startLineNumber) :
    replaceFrom base doc pos ms = slice base pos pos' ++ replaceFrom base doc pos' ms := by
  cases ms with
  | nil => exact (slice_append_drop hpos hle).symm
  | cons m ms =>
    unfold replaceFrom
    rw [← slice_append hpos hle (hstart m mem_cons_self), append_assoc]

/-- Lines in front of the first mapping are the same in both documents. -/
theorem Matches.advance (h : Matches base doc pos delta ms) (hpos : 1 ≤ pos) (hdelta : 1 ≤ pos + delta) (hle : pos ≤ pos')
    (hstart : ∀ m ∈ ms, pos' ≤ m.inputRange.startLineNumber) (hend : pos' ≤ base.length + 1) :
    slice base pos pos' = slice doc (pos + delta) (pos' + delta) ∧ Matches base doc pos' delta ms := by
  have hdoc : slice doc (pos + delta) (pos' + delta) ++ doc.drop (pos' + delta - 1).toNat = doc.drop (pos + delta - 1).toNat :=
    slice_append_drop hdelta (by omega)
  unfold Matches at h
  rw [replaceFrom_split hpos hle hstart, ← hdoc] at h
  have hlength := congrArg List.length h
  rw [hdoc, length_append, length_drop, length_slice hpos hle hend] at hlength
  refine append_inj h ?_
  rw [length_slice hpos hle hend]
  unfold slice
  rw [length_take, length_drop]
  omega

variable {m : LineRangeMapping}

theorem Matches.pass (h : Matches base doc m.inputRange.startLineNumber delta (m :: ms))
    (hstart : m.outputRange.startLineNumber = m.inputRange.startLineNumber + delta)
    (hpos : 1 ≤ m.outputRange.startLineNumber) :
    Matches base doc m.inputRange.endLineNumberExclusive m.resultingDeltaFromOriginalToModified ms := by
  unfold Matches replaceFrom at h
  have hempty : slice base m.inputRange.startLineNumber m.inputRange.startLineNumber = [] := by
    unfold slice
    rw [Int.sub_self]
    rfl
  rw [hempty, nil_append, ← hstart, ← slice_append_drop hpos m.outputRange.start_le_end] at h
  have hrest := append_cancel_left h
  unfold Matches LineRangeMapping.resultingDeltaFromOriginalToModified
  rw [hrest]
  congr 2
  omega

theorem Matches.step (h : Matches base doc pos delta (m :: ms)) (hchain : ChainFrom pos delta [m]) (hpos : 1 ≤ pos)
    (hdelta : 1 ≤ pos + delta) (hlater : ∀ m' ∈ ms, m.inputRange.endLineNumberExclusive ≤ m'.inputRange.startLineNumber)
    (hend : m.inputRange.endLineNumberExclusive ≤ base.length + 1) :
    slice base pos m.inputRange.startLineNumber = slice doc (pos + delta) m.outputRange.startLineNumber ∧
      Matches base doc m.inputRange.endLineNumberExclusive m.resultingDeltaFromOriginalToModified ms ∧
      1 ≤ m.inputRange.endLineNumberExclusive + m.resultingDeltaFromOriginalToModified := by
  obtain ⟨hstart, hout, -⟩ := hchain
  have hinput := m.inputRange.start_le_end
  have houtput := m.outputRange.start_le_end
  have hfirst : ∀ m' ∈ m :: ms, m.inputRange.startLineNumber ≤ m'.inputRange.startLineNumber := by
    intro m' hm'
    rcases mem_cons.mp hm' with rfl | hm'
    · exact Int.le_refl _
    · exact Int.le_trans hinput (hlater m' hm')
  obtain ⟨hgap, hat⟩ := h.advance hpos hdelta hstart hfirst (by omega)
  rw [← hout] at hgap
  refine ⟨hgap, hat.pass hout (by omega), ?_⟩
  show 1 ≤ m.inputRange.endLineNumberExclusive +
    (m.outputRange.endLineNumberExclusive - m.inputRange.endLineNumberExclusive)
  omega

theorem ChainFrom.later {ms1 ms2 : List LineRangeMapping} {stop : Int} (h : ChainFrom pos delta (m :: ms1))
    (hinside : m.inputRange.endLineNumberExclusive ≤ stop) (hrest : ∀ m ∈ ms2, stop ≤ m.inputRange.startLineNumber) :
    ∀ m' ∈ ms1 ++ ms2, m.inputRange.endLineNumberExclusive ≤ m'.inputRange.startLineNumber := by
  intro m' hm'
  rcases mem_append.mp hm' with hm' | hm'
  · have := h.2.2.start_le hm'
    omega
  · exact Int.le_trans hinside (hrest m' hm')

theorem ChainFrom.tail (h : ChainFrom pos delta (m :: ms)) :
    ChainFrom m.inputRange.endLineNumberExclusive m.resultingDeltaFromOriginalToModified ms :=
  h.2.2.mono fun m' hm' => by
    have := h.2.2.start_le hm'
    omega

theorem Matches.group {stop : Int} {ms1 ms2 : List LineRangeMapping} (h : Matches base doc pos delta (ms1 ++ ms2))
    (hchain : ChainFrom pos delta ms1) (hpos : 1 ≤ pos) (hdelta : 1 ≤ pos + delta) (hle : pos ≤ stop)
    (hinside : ∀ m ∈ ms1, m.inputRange.endLineNumberExclusive ≤ stop)
    (hrest : ∀ m ∈ ms2, stop ≤ m.inputRange.startLineNumber) (hstop : stop ≤ base.length + 1) :
    Matches base doc stop (deltaAfter delta ms1) ms2 ∧ 1 ≤ stop + deltaAfter delta ms1 := by
  induction ms1 generalizing pos delta with
  | nil => exact ⟨(h.advance hpos hdelta hle hrest hstop).2, by show 1 ≤ stop + delta; omega⟩
  | cons m ms1 ih =>
    have hmEnd := hinside m mem_cons_self
    have hmInput := m.inputRange.start_le_end
    obtain ⟨-, hafter, hpositive⟩ := h.step ⟨hchain.1, hchain.2.1, trivial⟩ hpos hdelta (hchain.later hmEnd hrest) (by omega)
    have hstart := hchain.1
    exact ih hafter hchain.tail (by omega) hpositive hmEnd fun m' hm' => hinside m' (mem_cons_of_mem _ hm')

end Replacing

/-! ## Alignments -/

namespace MappingAlignment

variable {T α : Type} {mapping : T → LineRangeMapping} {base doc : List α} {pos delta : Int}

def Part.lineRangeMapping (part : Part T) : LineRangeMapping := ⟨part.inputRange, part.outputRange⟩

variable {parts : List (Part T)}

theorem AlignedFrom.start_le (h : AlignedFrom mapping pos delta parts) {diff : T}
    (hdiff : diff ∈ parts.flatMap Part.lineMappings) : pos ≤ (mapping diff).inputRange.startLineNumber := by
  induction parts generalizing pos delta with
  | nil => cases hdiff
  | cons part parts ih =>
    obtain ⟨hstart, -, hchain, -, -, hrest⟩ := h
    rw [flatMap_cons, mem_append] at hdiff
    rcases hdiff with hdiff | hdiff
    · have := hchain.start_le (mem_map_of_mem hdiff)
      omega
    · have := ih hrest hdiff
      have := part.inputRange.start_le_end
      omega

/-- Replacing the lines of alignments gives what replacing the lines of their mappings gives. -/
theorem AlignedFrom.replaceFrom_eq (h : AlignedFrom mapping pos delta parts) (hpos : 1 ≤ pos) (hdelta : 1 ≤ pos + delta)
    (hend : ∀ part ∈ parts, part.inputRange.endLineNumberExclusive ≤ base.length + 1)
    (hmatches : Matches base doc pos delta ((parts.flatMap Part.lineMappings).map mapping)) :
    replaceFrom base doc pos (parts.map Part.lineRangeMapping) = doc.drop (pos + delta - 1).toNat := by
  induction parts generalizing pos delta with
  | nil => exact hmatches
  | cons part parts ih =>
    obtain ⟨hstart, hout, hchain, hinside, houtEnd, hrest⟩ := h
    have hinput := part.inputRange.start_le_end
    have houtput := part.outputRange.start_le_end
    have hpartEnd := hend part mem_cons_self
    rw [flatMap_cons, map_append] at hmatches
    have hbehind : ∀ m ∈ (parts.flatMap Part.lineMappings).map mapping,
        part.inputRange.endLineNumberExclusive ≤ m.inputRange.startLineNumber := by
      intro m hm
      obtain ⟨diff, hdiff, rfl⟩ := mem_map.mp hm
      have := hrest.start_le hdiff
      omega
    -- the lines in front of the alignment are unchanged, and the mappings in it lead to its end
    obtain ⟨hgap, hat⟩ := hmatches.advance hpos hdelta hstart (fun m hm => by
      rcases mem_append.mp hm with hm | hm
      · exact hchain.start_le hm
      · have := hbehind m hm
        omega) (by omega)
    obtain ⟨hafter, hdelta'⟩ := hat.group hchain (by omega) (by omega) hinput (fun m hm => by
      obtain ⟨diff, hdiff, rfl⟩ := mem_map.mp hm
      exact hinside diff hdiff) hbehind hpartEnd
    have hih := ih (hrest.mono (by omega)) (by omega) hdelta' (fun part hpart => hend part (mem_cons_of_mem _ hpart)) hafter
    show slice base pos part.inputRange.startLineNumber ++ (slice doc part.outputRange.startLineNumber
      part.outputRange.endLineNumberExclusive ++ replaceFrom base doc part.inputRange.endLineNumberExclusive _) = _
    rw [hih, hgap, ← houtEnd, slice_append_drop (by omega) houtput, hout, slice_append_drop hdelta (by omega)]

/-- Two alignments do not touch, and the gap between them is as long in the outputs as in the base. -/
def Apart (a b : MappingAlignment T) : Prop :=
  a.inputRange.endLineNumberExclusive < b.inputRange.startLineNumber ∧
    b.output1Range.startLineNumber - a.output1Range.endLineNumberExclusive =
      b.inputRange.startLineNumber - a.inputRange.endLineNumberExclusive ∧
    b.output2Range.startLineNumber - a.output2Range.endLineNumberExclusive =
      b.inputRange.startLineNumber - a.inputRange.endLineNumberExclusive

variable {alignments : List (MappingAlignment T)}

theorem Result.isChain {delta1 delta2 : Int} {l1 l2 : List T} (h : Result mapping pos delta1 delta2 l1 l2 alignments) :
    alignments.IsChain Apart := by
  obtain ⟨h1, h2, -, -, -⟩ := h
  induction alignments generalizing pos delta1 delta2 with
  | nil => exact List.IsChain.nil
  | cons a alignments ih =>
    obtain ⟨-, -, -, -, hend1, hrest1⟩ := h1
    obtain ⟨-, -, -, -, hend2, hrest2⟩ := h2
    have hchain := ih hrest1 hrest2
    cases alignments with
    | nil => exact List.IsChain.singleton a
    | cons b alignments =>
      obtain ⟨hlt, hstart1, -⟩ := hrest1
      obtain ⟨-, hstart2, -⟩ := hrest2
      dsimp only [part1, part2] at hend1 hend2 hlt hstart1 hstart2
      exact isChain_cons_cons.mpr ⟨⟨by omega, by omega, by omega⟩, hchain⟩

theorem checkAdjacentItems_outputs (h : alignments.IsChain Apart) :
    checkAdjacentItems (alignments.map fun m => ⟨m.output1Range, m.output2Range⟩) = true := by
  induction alignments with
  | nil => rfl
  | cons a alignments ih =>
    cases alignments with
    | nil => rfl
    | cons b alignments =>
      obtain ⟨⟨hlt, hgap1, hgap2⟩, hrest⟩ := isChain_cons_cons.mp h
      have hchecked := ih hrest
      rw [map_cons] at hchecked
      rw [map_cons, map_cons]
      unfold checkAdjacentItems
      rw [hchecked, Bool.and_true]
      unfold LineRange.isBefore
      simp only [Bool.and_eq_true, decide_eq_true_eq, beq_iff_eq]
      omega

theorem AlignedFrom.contains (h : AlignedFrom mapping pos delta parts) {part : Part T} (hpart : part ∈ parts) {diff : T}
    (hdiff : diff ∈ part.lineMappings) :
    part.inputRange.containsRange (mapping diff).inputRange = true := by
  induction parts generalizing pos delta with
  | nil => cases hpart
  | cons first parts ih =>
    obtain ⟨-, -, hchain, hinside, -, hrest⟩ := h
    rcases mem_cons.mp hpart with rfl | hpart
    · unfold LineRange.containsRange
      simp only [Bool.and_eq_true, decide_eq_true_eq]
      exact ⟨hchain.start_le (mem_map_of_mem hdiff), hinside diff hdiff⟩
    · exact ih hrest hpart

theorem exists_start_le (l : List T) (mapping : T → LineRangeMapping) :
    ∃ pos : Int, ∀ diff ∈ l, pos ≤ (mapping diff).inputRange.startLineNumber := by
  induction l with
  | nil => exact ⟨0, fun _ hdiff => nomatch hdiff⟩
  | cons first l ih =>
    obtain ⟨pos, hpos⟩ := ih
    refine ⟨min pos (mapping first).inputRange.startLineNumber, fun diff hdiff => ?_⟩
    rcases mem_cons.mp hdiff with rfl | hdiff
    · exact Int.min_le_right _ _
    · exact Int.le_trans (Int.min_le_left _ _) (hpos diff hdiff)

theorem flatMap_part1 (alignments : List (MappingAlignment T)) :
    (alignments.map part1).flatMap Part.lineMappings = alignments.flatMap output1LineMappings := by
  rw [flatMap_map]
  rfl

theorem flatMap_part2 (alignments : List (MappingAlignment T)) :
    (alignments.map part2).flatMap Part.lineMappings = alignments.flatMap output2LineMappings := by
  rw [flatMap_map]
  rfl

theorem Result.end_le {delta1 delta2 bound : Int} {l1 l2 : List T} (h : Result mapping pos delta1 delta2 l1 l2 alignments)
    (h1 : ∀ diff ∈ l1, (mapping diff).inputRange.endLineNumberExclusive ≤ bound)
    (h2 : ∀ diff ∈ l2, (mapping diff).inputRange.endLineNumberExclusive ≤ bound) {a : MappingAlignment T}
    (ha : a ∈ alignments) : a.inputRange.endLineNumberExclusive ≤ bound := by
  obtain ⟨diff, hdiff, hend⟩ := h.ends a ha
  rw [← hend]
  rcases hdiff with hdiff | hdiff
  · refine h1 diff ?_
    rw [← h.all1]
    exact mem_flatMap.mpr ⟨a, ha, hdiff⟩
  · refine h2 diff ?_
    rw [← h.all2]
    exact mem_flatMap.mpr ⟨a, ha, hdiff⟩

/-- `compute` does not throw.  The alignments do not touch, their gaps are as long in the outputs as in the base, and each
mapping is in one of them.  Replacing their lines in the base gives the documents that the mappings describe, and the mappings
between the outputs pass the assertion. -/
theorem alignments_partition (l1 l2 : List T) (h1 : Valid (l1.map mapping)) (h2 : Valid (l2.map mapping)) :
    ∃ alignments, compute mapping l1 l2 = some alignments ∧
      alignments.IsChain Apart ∧
      (∀ a, alignments.head? = some a → a.output1Range.startLineNumber = a.inputRange.startLineNumber ∧
        a.output2Range.startLineNumber = a.inputRange.startLineNumber) ∧
      alignments.flatMap output1LineMappings = l1 ∧ alignments.flatMap output2LineMappings = l2 ∧
      (∀ a ∈ alignments, ∀ diff, diff ∈ a.output1LineMappings ∨ diff ∈ a.output2LineMappings →
        a.inputRange.containsRange (mapping diff).inputRange = true) ∧
      (∀ (α : Type) (base doc1 doc2 : List α), Describes base doc1 (l1.map mapping) → Describes base doc2 (l2.map mapping) →
        replaceLines base doc1 (alignments.map fun a => ⟨a.inputRange, a.output1Range⟩) = doc1 ∧
          replaceLines base doc2 (alignments.map fun a => ⟨a.inputRange, a.output2Range⟩) = doc2) ∧
      ∃ mappings, betweenOutputs mapping l1 l2 = some (mappings, true) := by
  obtain ⟨pos, hpos⟩ := exists_start_le (l1 ++ l2) mapping
  simp only [mem_append] at hpos
  obtain ⟨alignments, hcompute, hresult⟩ := compute_spec h1 h2 hpos
  have hchain := hresult.isChain
  refine ⟨alignments, hcompute, hchain, ?_, hresult.all1, hresult.all2, ?_, ?_, ?_⟩
  · intro a ha
    cases alignments with
    | nil => cases ha
    | cons first alignments =>
      cases ha
      obtain ⟨-, hstart1, -⟩ := hresult.aligned1
      obtain ⟨-, hstart2, -⟩ := hresult.aligned2
      dsimp only [part1, part2] at hstart1 hstart2
      exact ⟨by omega, by omega⟩
  · intro a ha diff hdiff
    rcases hdiff with hdiff | hdiff
    · exact hresult.aligned1.contains (mem_map_of_mem ha) hdiff
    · exact hresult.aligned2.contains (mem_map_of_mem ha) hdiff
  · rintro α base doc1 doc2 ⟨hin1, hdoc1⟩ ⟨hin2, hdoc2⟩
    -- the mappings are about lines of the base, so the first line can be taken as the start
    obtain ⟨alignments', hcompute', hresult'⟩ := @compute_spec 1 T mapping l1 l2 h1 h2 fun diff hdiff => by
      rcases hdiff with hdiff | hdiff
      · exact (hin1 _ (mem_map_of_mem hdiff)).1
      · exact (hin2 _ (mem_map_of_mem hdiff)).1
    rw [hcompute] at hcompute'
    cases hcompute'
    have hend : ∀ a ∈ alignments, a.inputRange.endLineNumberExclusive ≤ base.length + 1 := fun a ha =>
      hresult'.end_le (fun diff hdiff => (hin1 _ (mem_map_of_mem hdiff)).2.1)
        (fun diff hdiff => (hin2 _ (mem_map_of_mem hdiff)).2.1) ha
    have hreplace : ∀ {l : List T} {doc : List α} (part : MappingAlignment T → Part T),
        (∀ a, (part a).inputRange = a.inputRange) → AlignedFrom mapping 1 0 (alignments.map part) →
        (alignments.map part).flatMap Part.lineMappings = l → replaceLines base doc (l.map mapping) = doc →
        replaceLines base doc ((alignments.map part).map Part.lineRangeMapping) = doc := by
      intro l doc part hpart haligned hall hdoc
      refine haligned.replaceFrom_eq (by decide) (by decide) ?_ ?_
      · intro p hp
        obtain ⟨a, ha, rfl⟩ := mem_map.mp hp
        rw [hpart]
        exact hend a ha
      · rw [hall]
        exact hdoc
    have hreplace1 := hreplace part1 (fun _ => rfl) hresult'.aligned1 ((flatMap_part1 alignments).trans hresult'.all1) hdoc1
    have hreplace2 := hreplace part2 (fun _ => rfl) hresult'.aligned2 ((flatMap_part2 alignments).trans hresult'.all2) hdoc2
    rw [map_map] at hreplace1 hreplace2
    exact ⟨hreplace1, hreplace2⟩
  · unfold betweenOutputs
    rw [hcompute, Option.map_some]
    dsimp only
    rw [checkAdjacentItems_outputs hchain]
    exact ⟨_, rfl⟩

/-- An insertion on one side and two changes on the other. -/
theorem alignments_of_two_changes :
    let l1 : List LineRangeMapping := [⟨⟨2, 0⟩, ⟨2, 1⟩⟩]
    let l2 : List LineRangeMapping := [⟨⟨1, 2⟩, ⟨1, 1⟩⟩, ⟨⟨5, 1⟩, ⟨4, 1⟩⟩]
    ∃ alignments, compute id l1 l2 = some alignments ∧
      alignments.map inputRange = [⟨1, 2⟩, ⟨5, 1⟩] ∧ alignments.map output1Range = [⟨1, 3⟩, ⟨6, 1⟩] ∧
      alignments.flatMap output2LineMappings = l2 := by
  intro l1 l2
  obtain ⟨alignments, hcompute, -, -, -, hall, -⟩ := @alignments_partition LineRangeMapping id l1 l2
    ⟨by decide, by decide⟩ ⟨by decide, by decide⟩
  have hvalue : compute id l1 l2 = some [⟨⟨1, 2⟩, ⟨1, 3⟩, l1, ⟨1, 1⟩, [⟨⟨1, 2⟩, ⟨1, 1⟩⟩]⟩,
      ⟨⟨5, 1⟩, ⟨6, 1⟩, [], ⟨4, 1⟩, [⟨⟨5, 1⟩, ⟨4, 1⟩⟩]⟩] := by decide
  refine ⟨alignments, hcompute, ?_, ?_, hall⟩
  · rw [Option.some.inj (hcompute.symm.trans hvalue)]
    rfl
  · rw [Option.some.inj (hcompute.symm.trans hvalue)]
    rfl

end MappingAlignment

end TongjiCode.MergeEditor
