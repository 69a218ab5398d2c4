import TongjiCode.ViewModel.ViewModelLines

/-!
# The events rebuild the view

Each call returns the events that turn the old sequence of view lines into the new one, and the sums that they are computed
from are those of the view line counts.
-/

open List

namespace TongjiCode.ViewModel

/-! ## Events on rows that are split -/

section Rows

variable {Row : Type} {above old new below below' rows newRows : List Row}

theorem slice_split (above new below : List Row) : ((above ++ new ++ below).drop above.length).take new.length = new := by
  rw [append_assoc, drop_left' rfl, take_left' rfl]

theorem take_split (above old below : List Row) : (above ++ old ++ below).take above.length = above := by
  rw [append_assoc, take_left' rfl]

theorem drop_split (above old below : List Row) : (above ++ old ++ below).drop (above.length + old.length) = below :=
  drop_left' length_append

theorem ViewLinesDeletedEvent.apply_split (hrows : rows = above ++ old ++ below) {fromLineNumber toLineNumber : Int}
    (hfrom : fromLineNumber = above.length + 1) (hto : toLineNumber = above.length + old.length) :
    (ViewLinesDeletedEvent.mk fromLineNumber toLineNumber).apply rows = some (above ++ below) := by
  subst hrows hfrom hto
  unfold ViewLinesDeletedEvent.apply
  by_cases hempty : old = []
  · subst hempty
    rw [if_pos (by dsimp only [length_nil]; omega), append_nil]
  · have hlength := length_pos_of_ne_nil hempty
    have hstart : ((above.length : Int) + 1 - 1).toNat = above.length := by omega
    have hstop : ((above.length : Int) + old.length).toNat = above.length + old.length := by omega
    simp only [hstart, hstop]
    rw [if_neg (by omega), if_pos (by simp only [length_append]; omega), take_split, drop_split]

theorem ViewLinesInsertedEvent.apply_split (hrows : rows = above ++ below) (hnew : newRows = above ++ new ++ below')
    {fromLineNumber toLineNumber : Int} (hfrom : fromLineNumber = above.length + 1)
    (hto : toLineNumber = above.length + new.length) :
    (ViewLinesInsertedEvent.mk fromLineNumber toLineNumber).apply newRows rows = some (above ++ new ++ below) := by
  subst hrows hnew hfrom hto
  unfold ViewLinesInsertedEvent.apply
  by_cases hempty : new = []
  · subst hempty
    rw [if_pos (by dsimp only [length_nil]; omega), append_nil]
  · have hlength := length_pos_of_ne_nil hempty
    have hstart : ((above.length : Int) + 1 - 1).toNat = above.length := by omega
    have hcount : ((above.length : Int) + new.length - (above.length + 1) + 1).toNat = new.length := by omega
    simp only [hstart, hcount]
    rw [if_neg (by omega), if_pos (by simp only [length_append]; omega), slice_split, take_left' rfl, drop_left' rfl]

theorem ViewLinesChangedEvent.apply_split (hrows : rows = above ++ old ++ below) (hnew : newRows = above ++ new ++ below')
    (hlength : old.length = new.length) {fromLineNumber count : Int} (hfrom : fromLineNumber = above.length + 1)
    (hcount : count = new.length) :
    (ViewLinesChangedEvent.mk fromLineNumber count).apply newRows rows = some (above ++ new ++ below) := by
  subst hrows hnew hfrom hcount
  unfold ViewLinesChangedEvent.apply
  by_cases hempty : new = []
  · subst hempty
    obtain rfl : old = [] := length_eq_zero_iff.mp hlength
    rw [if_pos (by simp)]
  · have hpos := length_pos_of_ne_nil hempty
    have hstart : ((above.length : Int) + 1 - 1).toNat = above.length := by omega
    simp only [hstart, Int.toNat_natCast]
    rw [if_neg (by omega), if_pos (by simp only [length_append]; omega), slice_split, take_split, ← hlength, drop_split]

open ViewModelLines (LineChange lineChange)

theorem changed_apply (hrows : rows = above ++ old ++ below) (hnew : newRows = above ++ new ++ below')
    (hlength : old.length = new.length) {change : LineChange} (hfrom : change.changeFrom = above.length + 1)
    (hto : change.changeTo = above.length + new.length) :
    (change.viewLinesChangedEvent.elim (some rows) fun event => event.apply newRows rows) = some (above ++ new ++ below) := by
  unfold LineChange.viewLinesChangedEvent
  split
  · exact ViewLinesChangedEvent.apply_split hrows hnew hlength hfrom (by omega)
  · obtain rfl : new = [] := length_eq_zero_iff.mp (by omega)
    obtain rfl : old = [] := length_eq_zero_iff.mp hlength
    rw [hrows, Option.elim_none]

theorem lineChange_apply (hrows : rows = above ++ old ++ below) (hnew : newRows = above ++ new ++ below)
    {changeFrom oldOutputLineCount newOutputLineCount : Int} (hfrom : changeFrom = above.length + 1)
    (hold : oldOutputLineCount = old.length) (hcount : newOutputLineCount = new.length) :
    let change := lineChange changeFrom oldOutputLineCount newOutputLineCount
    (ViewLinesEvents.mk change.viewLinesChangedEvent change.viewLinesInsertedEvent change.viewLinesDeletedEvent).apply
      newRows rows = some newRows := by
  subst hfrom hold hcount
  intro change
  unfold ViewLinesEvents.apply
  by_cases hfewer : new.length < old.length
  · have hchange : change = _ := if_pos (by omega)
    have hrows' : rows = above ++ old.take new.length ++ (old.drop new.length ++ below) := by
      rw [hrows, append_assoc above (old.take _), ← append_assoc (old.take _), take_append_drop,
        append_assoc]
    have hfrom : change.changeFrom = above.length + 1 := by rw [hchange]
    have hto : change.changeTo = above.length + new.length := by
      rw [hchange]
      dsimp only
      omega
    have hinserted : change.viewLinesInsertedEvent = none := by
      rw [hchange]
      rfl
    have hdeleted : change.viewLinesDeletedEvent = some ⟨above.length + new.length + 1, above.length + old.length⟩ := by
      rw [hchange, LineChange.viewLinesDeletedEvent, if_pos (by dsimp only; omega)]
      dsimp only
      congr 2 <;> omega
    rw [changed_apply hrows' hnew (by rw [length_take]; omega) hfrom hto, hinserted, hdeleted, Option.bind_some,
      Option.elim_none, Option.bind_some, Option.elim_some]
    refine (ViewLinesDeletedEvent.apply_split (append_assoc _ _ _).symm ?_ ?_).trans (congrArg some hnew.symm)
    · rw [length_append]
      omega
    · rw [length_append, length_drop]
      omega
  · by_cases hmore : old.length < new.length
    · have hchange : change = _ := (if_neg (by omega)).trans (if_pos (by omega))
      have hnew' : newRows = above ++ new.take old.length ++ (new.drop old.length ++ below) := by
        rw [hnew, append_assoc above (new.take _), ← append_assoc (new.take _), take_append_drop,
          append_assoc]
      have hfrom : change.changeFrom = above.length + 1 := by rw [hchange]
      have hto : change.changeTo = above.length + (new.take old.length).length := by
        rw [hchange, length_take]
        dsimp only
        omega
      have hinserted : change.viewLinesInsertedEvent = some ⟨above.length + old.length + 1, above.length + new.length⟩ := by
        rw [hchange, LineChange.viewLinesInsertedEvent, if_pos (by dsimp only; omega)]
        dsimp only
        congr 2 <;> omega
      have hdeleted : change.viewLinesDeletedEvent = none := by
        rw [hchange]
        rfl
      rw [changed_apply hrows hnew' (by rw [length_take]; omega) hfrom hto, hinserted, hdeleted, Option.bind_some,
        Option.elim_some]
      rw [ViewLinesInsertedEvent.apply_split rfl (hnew'.trans (append_assoc _ _ _).symm)]
      · rw [Option.bind_some, Option.elim_none, hnew', append_assoc]
      · rw [length_append, length_take]
        omega
      · rw [length_append, length_take, length_drop]
        omega
    · have hchange : change = _ := (if_neg (by omega)).trans (if_neg (by omega))
      have hfrom : change.changeFrom = above.length + 1 := by rw [hchange]
      have hto : change.changeTo = above.length + new.length := by
        rw [hchange]
        dsimp only
        omega
      have hinserted : change.viewLinesInsertedEvent = none := by
        rw [hchange]
        rfl
      have hdeleted : change.viewLinesDeletedEvent = none := by
        rw [hchange]
        rfl
      rw [changed_apply hrows hnew (by omega) hfrom hto, hinserted, hdeleted, Option.bind_some, Option.elim_none,
        Option.bind_some, Option.elim_none, hnew]

end Rows

/-! ## View lines of split model lines -/

section Lines

variable {Line : Type}

def viewLinesOfAll (modelLines : List (Line × ModelLineProjection)) : List (ViewLine Line) := modelLines.flatMap viewLinesOf

def viewLineCounts (modelLines : List (Line × ModelLineProjection)) : List Nat :=
  modelLines.map fun line => line.2.getViewLineCount

theorem length_viewLinesOfAll (modelLines : List (Line × ModelLineProjection)) :
    (viewLinesOfAll modelLines).length = (viewLineCounts modelLines).sum := by
  induction modelLines with
  | nil => rfl
  | cons line modelLines ih =>
    have hline : (viewLinesOf line).length = line.2.getViewLineCount := by simp [viewLinesOf]
    show (viewLinesOf line ++ viewLinesOfAll modelLines).length = line.2.getViewLineCount + (viewLineCounts modelLines).sum
    rw [length_append, hline, ih]

theorem viewLinesOfAll_append (modelLines modelLines' : List (Line × ModelLineProjection)) :
    viewLinesOfAll (modelLines ++ modelLines') = viewLinesOfAll modelLines ++ viewLinesOfAll modelLines' :=
  flatMap_append

structure Projects (contents : List Line) (lines : ViewModelLines) (modelLines : List (Line × ModelLineProjection)) : Prop where
  contents : contents = modelLines.map Prod.fst
  projections : lines.modelLineProjections = modelLines.map Prod.snd

theorem Projects.viewLines {contents : List Line} {lines : ViewModelLines} {modelLines : List (Line × ModelLineProjection)}
    (h : Projects contents lines modelLines) : viewLines contents lines = viewLinesOfAll modelLines := by
  rw [TongjiCode.ViewModel.viewLines, h.contents, h.projections, zip_map']
  simp [viewLinesOfAll]

theorem Projects.of_length {contents : List Line} {lines : ViewModelLines}
    (h : contents.length = lines.modelLineProjections.length) :
    Projects contents lines (contents.zip lines.modelLineProjections) :=
  ⟨(map_fst_zip (Nat.le_of_eq h)).symm, (map_snd_zip (by omega)).symm⟩

end Lines

/-! ## The sums are those of the counts -/

/-- The sums are computed from the view line counts of the projections. -/
structure ViewModelLines.Good (lines : ViewModelLines) : Prop where
  counts : lines.projectedModelLineLineCounts.Good
  values : lines.projectedModelLineLineCounts.values = lines.modelLineProjections.map ModelLineProjection.getViewLineCount

namespace ViewModelLines

theorem Good.constructLines (versionId : Nat) (lines : List (Option ModelLineProjectionData × Bool)) :
    (constructLines versionId lines).Good :=
  ⟨.new _, rfl⟩

section Calls

variable {Line : Type} {lines : ViewModelLines} {contents : List Line} {modelLines : List (Line × ModelLineProjection)}

theorem Good.values_eq (h : lines.Good) (hprojects : Projects contents lines modelLines) :
    lines.projectedModelLineLineCounts.values = viewLineCounts modelLines := by
  rw [h.values, hprojects.projections, map_map]
  rfl

variable {versionId : Nat}

theorem isNewer_of_lt (h : lines.validModelVersionId < versionId) :
    lines.isNewer (some versionId) = true := by
  simp [isNewer, h, Nat.ne_zero_of_lt h]

variable {fromLineNumber : Nat}

/-- The first view line of a model line comes after those of the lines above it. -/
theorem Good.outputFromLineNumber (h : lines.Good) (hfrom : 1 ≤ fromLineNumber)
    (hto : fromLineNumber ≤ lines.modelLineProjections.length + 1) :
    ∃ counts, lines.outputFromLineNumber fromLineNumber =
        some ((lines.projectedModelLineLineCounts.values.take (fromLineNumber - 1)).sum + 1, counts) ∧
      counts.Good ∧ counts.values = lines.projectedModelLineLineCounts.values := by
  unfold ViewModelLines.outputFromLineNumber
  by_cases hfirst : fromLineNumber = 1
  · subst hfirst
    exact ⟨_, by rw [if_pos rfl]; simp, h.counts, rfl⟩
  · have hlength := congrArg List.length h.values
    rw [List.length_map] at hlength
    have hne : lines.projectedModelLineLineCounts.values ≠ [] := List.ne_nil_of_length_pos (by omega)
    have hcount : fromLineNumber - 1 ≤ lines.projectedModelLineLineCounts.values.length := by omega
    obtain ⟨counts, hread, hgood, hvalues⟩ := h.counts.getPrefixSum hne hcount
    exact ⟨counts, by rw [if_neg hfirst, hread]; rfl, hgood, hvalues⟩

/-- What a call makes of the view model. -/
structure Becomes (lines lines' : ViewModelLines) (modelLineProjections : List ModelLineProjection) : Prop where
  good : lines'.Good
  version : lines'.validModelVersionId = lines.validModelVersionId
  projections : lines'.modelLineProjections = modelLineProjections

theorem Good.onModelLinesDeleted (h : lines.Good) (hversion : lines.validModelVersionId < versionId)
    {fromLineNumber toLineNumber : Nat} (hfrom : 1 ≤ fromLineNumber) (hto : fromLineNumber ≤ toLineNumber)
    (hlast : toLineNumber ≤ lines.modelLineProjections.length) :
    ∃ lines', lines.onModelLinesDeleted (some versionId) fromLineNumber toLineNumber =
        some (lines', some ⟨(lines.projectedModelLineLineCounts.values.take (fromLineNumber - 1)).sum + 1,
          (lines.projectedModelLineLineCounts.values.take toLineNumber).sum⟩) ∧
      Becomes lines lines'
        (lines.modelLineProjections.take (fromLineNumber - 1) ++ lines.modelLineProjections.drop toLineNumber) := by
  have hlength := congrArg List.length h.values
  rw [List.length_map] at hlength
  obtain ⟨counts, hread, hcounts, hsame⟩ := h.outputFromLineNumber hfrom (by omega)
  have hcount : toLineNumber ≤ counts.values.length := by
    rw [hsame]
    omega
  obtain ⟨counts', hread', hcounts', hsame'⟩ := hcounts.getPrefixSum (List.ne_nil_of_length_pos (by omega)) hcount
  have hdrop : fromLineNumber - 1 + (toLineNumber - fromLineNumber + 1) = toLineNumber := by omega
  unfold ViewModelLines.onModelLinesDeleted
  rw [isNewer_of_lt hversion, hread]
  simp only [Bool.not_true, Bool.false_eq_true, if_false, Option.bind_some, hread', Option.map_some, hdrop, hsame]
  refine ⟨_, rfl, ⟨hcounts'.removeValues _ (by rw [hsame', hsame]; omega), ?_⟩, rfl, rfl⟩
  dsimp only [ConstantTimePrefixSumComputer.removeValues, ConstantTimePrefixSumComputer.invalidate]
  rw [hdrop, hsame', hsame, h.values, map_append, map_take, map_drop]

theorem Good.onModelLinesInserted (h : lines.Good) (hversion : lines.validModelVersionId < versionId) (toLineNumber : Nat)
    (lineBreaks : List (Option ModelLineProjectionData)) (hfrom : 1 ≤ fromLineNumber)
    (hlast : fromLineNumber ≤ lines.modelLineProjections.length + 1) :
    ∃ lines' insertLines, lines.onModelLinesInserted (some versionId) fromLineNumber toLineNumber lineBreaks =
        some (lines', some ⟨(lines.projectedModelLineLineCounts.values.take (fromLineNumber - 1)).sum + 1,
          (lines.projectedModelLineLineCounts.values.take (fromLineNumber - 1)).sum + 1 +
            (insertLines.map ModelLineProjection.getViewLineCount).sum - 1⟩) ∧
      insertLines.length = lineBreaks.length ∧
      Becomes lines lines' (lines.modelLineProjections.take (fromLineNumber - 1) ++ insertLines ++
        lines.modelLineProjections.drop (fromLineNumber - 1)) := by
  have hlength := congrArg List.length h.values
  rw [List.length_map] at hlength
  obtain ⟨counts, hread, hcounts, hsame⟩ := h.outputFromLineNumber hfrom hlast
  unfold ViewModelLines.onModelLinesInserted
  rw [isNewer_of_lt hversion, hread]
  refine ⟨_, _, rfl, List.length_map _, ⟨hcounts.insertValues _ (by rw [hsame]; omega), ?_⟩, rfl, rfl⟩
  dsimp only [ConstantTimePrefixSumComputer.insertValues, ConstantTimePrefixSumComputer.invalidate]
  rw [hsame, h.values, map_append, map_append, map_take, map_drop]

theorem Good.onModelLineChanged (h : lines.Good) {versionId : Option Nat}
    (hversion : ∀ id, versionId = some id → lines.validModelVersionId < id) {lineNumber : Nat}
    (lineBreakData : Option ModelLineProjectionData)
    {oldLine : ModelLineProjection} (hold : lines.modelLineProjections[lineNumber - 1]? = some oldLine) :
    ∃ lines' line, lines.onModelLineChanged versionId lineNumber lineBreakData =
        some (lines', lineChange ((lines.projectedModelLineLineCounts.values.take (lineNumber - 1)).sum + 1)
          oldLine.getViewLineCount line.getViewLineCount) ∧
      Becomes lines lines' (lines.modelLineProjections.set (lineNumber - 1) line) := by
  have hlength := congrArg List.length h.values
  rw [List.length_map] at hlength
  obtain ⟨hless, -⟩ := List.getElem?_eq_some_iff.mp hold
  obtain ⟨counts, hread, hcounts, hsame⟩ := h.counts.getPrefixSum (List.ne_nil_of_length_pos (by omega))
    (show lineNumber - 1 ≤ lines.projectedModelLineLineCounts.values.length by omega)
  have hnewer : (versionId.isSome && !lines.isNewer versionId) = false := by
    cases versionId with
    | none => rfl
    | some id => simp [isNewer_of_lt (hversion id rfl)]
  unfold ViewModelLines.onModelLineChanged
  simp only [hnewer, hold, Bool.false_eq_true, if_false, Option.bind_some, hread, Option.map_some]
  refine ⟨_, _, rfl, ⟨hcounts.setValue _ _, ?_⟩, rfl, rfl⟩
  rw [ConstantTimePrefixSumComputer.values_setValue, hsame, h.values, map_set]

/-! ## One call -/

/-- What one call does: the events turn the old view lines into the new ones. -/
structure Follows (contents : List Line) (lines : ViewModelLines) (call : ModelLinesCall Line) (lines' : ViewModelLines)
    (events : ViewLinesEvents) : Prop where
  good : lines'.Good
  version : lines'.validModelVersionId = lines.validModelVersionId
  length : (call.apply contents).length = lines'.modelLineProjections.length
  view : events.apply (viewLines (call.apply contents) lines') (viewLines contents lines) =
    some (viewLines (call.apply contents) lines')

theorem Follows.of_projects {call : ModelLinesCall Line} {lines' : ViewModelLines} {events : ViewLinesEvents}
    (modelLines' : List (Line × ModelLineProjection)) (hprojects : Projects contents lines modelLines)
    (hbecomes : Becomes lines lines' (modelLines'.map Prod.snd)) (hcontents : call.apply contents = modelLines'.map Prod.fst)
    (hview : events.apply (viewLinesOfAll modelLines') (viewLinesOfAll modelLines) = some (viewLinesOfAll modelLines')) :
    Follows contents lines call lines' events := by
  have hprojects' : Projects (call.apply contents) lines' modelLines' := ⟨hcontents, hbecomes.projections⟩
  refine ⟨hbecomes.good, hbecomes.version, ?_, ?_⟩
  · rw [hcontents, hbecomes.projections, List.length_map, List.length_map]
  · rw [hprojects.viewLines, hprojects'.viewLines]
    exact hview

theorem exists_split {α : Type} {l : List α} {i j : Nat} (hij : i ≤ j) (hj : j ≤ l.length) :
    ∃ above old below, l = above ++ old ++ below ∧ above.length = i ∧ above.length + old.length = j := by
  refine ⟨l.take i, (l.drop i).take (j - i), l.drop j, ?_, by rw [length_take]; omega, ?_⟩
  · have hdrop : l.drop j = (l.drop i).drop (j - i) := by
      rw [drop_drop]
      congr 1
      omega
    rw [hdrop, append_assoc, take_append_drop, take_append_drop]
  · rw [length_take, length_take, length_drop]
    omega

theorem sum_take_viewLineCounts (above modelLines : List (Line × ModelLineProjection)) :
    ((viewLineCounts (above ++ modelLines)).take above.length).sum = (viewLinesOfAll above).length := by
  have hlength : (viewLineCounts above).length = above.length := List.length_map _
  rw [length_viewLinesOfAll, viewLineCounts, map_append, ← viewLineCounts, take_left' hlength]

section

variable (hgood : lines.Good) (hprojects : Projects contents lines modelLines)
include hgood hprojects

theorem follows_linesDeleted (hversion : lines.validModelVersionId < versionId) {fromLineNumber toLineNumber : Nat}
    (hfrom : 1 ≤ fromLineNumber) (hto : fromLineNumber ≤ toLineNumber) (hlast : toLineNumber ≤ modelLines.length) :
    ∃ lines' events, lines.call (.linesDeleted (some versionId) fromLineNumber toLineNumber : ModelLinesCall Line) =
        some (lines', events) ∧
      Follows contents lines (.linesDeleted (some versionId) fromLineNumber toLineNumber) lines' events := by
  obtain ⟨above, old, below, rfl, habove, hold⟩ := exists_split (show fromLineNumber - 1 ≤ toLineNumber by omega) hlast
  obtain ⟨lines', hcall, hbecomes⟩ := hgood.onModelLinesDeleted hversion hfrom hto
    (by rw [hprojects.projections, List.length_map]; exact hlast)
  refine ⟨lines', _, by rw [call, hcall]; rfl, .of_projects (above ++ below) hprojects ?_ ?_ ?_⟩
  · rw [hprojects.projections, ← map_take, ← map_drop, ← hold, ← habove, take_split, drop_split,
      ← map_append] at hbecomes
    exact hbecomes
  · rw [ModelLinesCall.apply, hprojects.contents, ← map_take, ← map_drop, ← hold, ← habove, take_split, drop_split,
      map_append]
  · rw [hgood.values_eq hprojects, ← hold, ← habove, ← length_append, sum_take_viewLineCounts (above ++ old),
      append_assoc above old, sum_take_viewLineCounts above, viewLinesOfAll_append, viewLinesOfAll_append,
      viewLinesOfAll_append, ← append_assoc]
    show (ViewLinesDeletedEvent.mk _ _).apply _ = _
    refine ViewLinesDeletedEvent.apply_split rfl rfl ?_
    rw [viewLinesOfAll_append, length_append]
    rfl

theorem follows_linesInserted (hversion : lines.validModelVersionId < versionId) (toLineNumber : Nat)
    (inserted : List (Line × Option ModelLineProjectionData)) (hfrom : 1 ≤ fromLineNumber)
    (hlast : fromLineNumber ≤ modelLines.length + 1) :
    ∃ lines' events, lines.call (.linesInserted (some versionId) fromLineNumber toLineNumber inserted) = some (lines', events) ∧
      Follows contents lines (.linesInserted (some versionId) fromLineNumber toLineNumber inserted) lines' events := by
  obtain ⟨above, old, below, rfl, habove, hold⟩ := exists_split (Nat.le_refl (fromLineNumber - 1))
    (show fromLineNumber - 1 ≤ modelLines.length by omega)
  obtain rfl : old = [] := length_eq_zero_iff.mp (by omega)
  rw [append_nil] at hprojects hlast
  obtain ⟨lines', insertLines, hcall, hlength, hbecomes⟩ := hgood.onModelLinesInserted hversion toLineNumber
    (inserted.map Prod.snd) hfrom (by rw [hprojects.projections, List.length_map]; exact hlast)
  rw [List.length_map] at hlength
  -- the inserted lines with their projections
  have hfst : ((inserted.map Prod.fst).zip insertLines).map Prod.fst = inserted.map Prod.fst :=
    map_fst_zip (by rw [List.length_map]; omega)
  have hsnd : ((inserted.map Prod.fst).zip insertLines).map Prod.snd = insertLines :=
    map_snd_zip (by rw [List.length_map]; omega)
  generalize (inserted.map Prod.fst).zip insertLines = new at hfst hsnd
  refine ⟨lines', _, by rw [call, hcall]; rfl, .of_projects (above ++ new ++ below) hprojects ?_ ?_ ?_⟩
  · rw [hprojects.projections, ← map_take, ← map_drop, ← habove, take_left' rfl, drop_left' rfl, ← hsnd,
      ← map_append, ← map_append] at hbecomes
    exact hbecomes
  · rw [ModelLinesCall.apply, hprojects.contents, ← map_take, ← map_drop, ← habove, take_left' rfl,
      drop_left' rfl, ← hfst, map_append, map_append]
  · have hcounts : insertLines.map ModelLineProjection.getViewLineCount = viewLineCounts new := by
      rw [← hsnd, map_map]
      rfl
    rw [hgood.values_eq hprojects, ← habove, sum_take_viewLineCounts above, hcounts, ← length_viewLinesOfAll,
      viewLinesOfAll_append, viewLinesOfAll_append, viewLinesOfAll_append]
    rw [ViewLinesEvents.apply, Option.elim_none, Option.bind_some, Option.elim_some,
      ViewLinesInsertedEvent.apply_split rfl rfl rfl (by omega), Option.bind_some, Option.elim_none]

theorem follows_lineChanged {versionId : Option Nat}
    (hversion : ∀ id, versionId = some id → lines.validModelVersionId < id) {lineNumber : Nat}
    (changed : Line × Option ModelLineProjectionData) (hfrom : 1 ≤ lineNumber) (hlast : lineNumber ≤ modelLines.length) :
    ∃ lines' events, lines.call (.lineChanged versionId lineNumber changed) = some (lines', events) ∧
      Follows contents lines (.lineChanged versionId lineNumber changed) lines' events := by
  obtain ⟨above, old, below, rfl, habove, hold⟩ := exists_split (show lineNumber - 1 ≤ lineNumber by omega) hlast
  obtain ⟨oldLine, rfl⟩ := length_eq_one_iff.mp (show old.length = 1 by omega)
  have hget : lines.modelLineProjections[lineNumber - 1]? = some oldLine.2 := by
    rw [hprojects.projections, ← habove]
    simp
  obtain ⟨lines', line, hcall, hbecomes⟩ := hgood.onModelLineChanged hversion changed.2 hget
  have hset : ∀ {α : Type} (f : Line × ModelLineProjection → α),
      ((above ++ [oldLine] ++ below).map f).set (lineNumber - 1) (f (changed.1, line)) =
        (above ++ [(changed.1, line)] ++ below).map f := by
    intro α f
    rw [← habove]
    simp
  refine ⟨lines', _, by rw [call, hcall]; rfl, .of_projects (above ++ [(changed.1, line)] ++ below) hprojects
    ?_ ?_ ?_⟩
  · rw [hprojects.projections, hset Prod.snd] at hbecomes
    exact hbecomes
  · rw [ModelLinesCall.apply, hprojects.contents, hset Prod.fst]
  · rw [hgood.values_eq hprojects, ← habove, append_assoc above [oldLine], sum_take_viewLineCounts above,
      viewLinesOfAll_append, viewLinesOfAll_append, viewLinesOfAll_append, viewLinesOfAll_append, ← append_assoc]
    have hcount : ∀ l : Line × ModelLineProjection, (l.2.getViewLineCount : Int) = (viewLinesOfAll [l]).length := by
      intro l
      rw [length_viewLinesOfAll]
      simp [viewLineCounts]
    exact lineChange_apply rfl rfl rfl (hcount oldLine) (hcount (changed.1, line))

end

end Calls

/-! ## Runs -/

section Run

variable {Line : Type}

/-- The version is newer and the line numbers are those of a model with so many lines. -/
def InRange (validModelVersionId lineCount : Nat) : ModelLinesCall Line → Prop
  | .linesDeleted versionId fromLineNumber toLineNumber =>
    (∃ id, versionId = some id ∧ validModelVersionId < id) ∧ 1 ≤ fromLineNumber ∧ fromLineNumber ≤ toLineNumber ∧
      toLineNumber ≤ lineCount
  | .linesInserted versionId fromLineNumber _ _ =>
    (∃ id, versionId = some id ∧ validModelVersionId < id) ∧ 1 ≤ fromLineNumber ∧ fromLineNumber ≤ lineCount + 1
  | .lineChanged versionId lineNumber _ =>
    (∀ id, versionId = some id → validModelVersionId < id) ∧ 1 ≤ lineNumber ∧ lineNumber ≤ lineCount

/-- Every call is in range of the lines that the calls before it leave. -/
def AllInRange (validModelVersionId : Nat) : List Line → List (ModelLinesCall Line) → Prop
  | _, [] => True
  | contents, call :: calls =>
    InRange validModelVersionId contents.length call ∧ AllInRange validModelVersionId (call.apply contents) calls

/-- A view that follows the events of the calls: its rows, next to the lines of the model and of the view model.  There is no
result if a call throws or an event is out of range. -/
def follow : List Line → ViewModelLines → List (ViewLine Line) → List (ModelLinesCall Line) →
    Option (List Line × ViewModelLines × List (ViewLine Line))
  | contents, lines, rows, [] => some (contents, lines, rows)
  | contents, lines, rows, call :: calls =>
    (lines.call call).bind fun (lines', events) =>
      (events.apply (viewLines (call.apply contents) lines') rows).bind fun rows' =>
        follow (call.apply contents) lines' rows' calls

theorem follows_call {contents : List Line} {lines : ViewModelLines} (hgood : lines.Good)
    (hlength : contents.length = lines.modelLineProjections.length) {call : ModelLinesCall Line}
    (hrange : InRange lines.validModelVersionId contents.length call) :
    ∃ lines' events, lines.call call = some (lines', events) ∧ Follows contents lines call lines' events := by
  have hprojects := Projects.of_length hlength
  have hzip : (contents.zip lines.modelLineProjections).length = contents.length := by
    rw [length_zip]
    omega
  rw [← hzip] at hrange
  cases call with
  | linesDeleted versionId fromLineNumber toLineNumber =>
    obtain ⟨⟨id, rfl, hversion⟩, hfrom, hto, hlast⟩ := hrange
    exact follows_linesDeleted hgood hprojects hversion hfrom hto hlast
  | linesInserted versionId fromLineNumber toLineNumber inserted =>
    obtain ⟨⟨id, rfl, hversion⟩, hfrom, hlast⟩ := hrange
    exact follows_linesInserted hgood hprojects hversion toLineNumber inserted hfrom hlast
  | lineChanged versionId lineNumber changed =>
    obtain ⟨hversion, hfrom, hlast⟩ := hrange
    exact follows_lineChanged hgood hprojects hversion changed hfrom hlast

/-- In every run the counts stay those of the projections, and a view that applies the events to the old view lines has the new
ones. -/
theorem follow_calls (contents : List Line) (lines : ViewModelLines) (hgood : lines.Good)
    (hlength : contents.length = lines.modelLineProjections.length) (calls : List (ModelLinesCall Line))
    (hrange : AllInRange lines.validModelVersionId contents calls) :
    ∃ contents' lines', follow contents lines (viewLines contents lines) calls =
        some (contents', lines', viewLines contents' lines') ∧
      contents' = calls.foldl ModelLinesCall.apply contents ∧ contents'.length = lines'.modelLineProjections.length ∧ lines'.Good := by
  induction calls generalizing contents lines with
  | nil => exact ⟨contents, lines, rfl, rfl, hlength, hgood⟩
  | cons call calls ih =>
    obtain ⟨hcall, hcalls⟩ := hrange
    obtain ⟨lines', events, hresult, hfollows⟩ := follows_call hgood hlength hcall
    rw [← hfollows.version] at hcalls
    obtain ⟨contents'', lines'', hrest, hcontents, hlength', hgood'⟩ := ih _ lines' hfollows.good hfollows.length hcalls
    refine ⟨contents'', lines'', ?_, hcontents, hlength', hgood'⟩
    rw [follow, hresult, Option.bind_some]
    dsimp only
    rw [hfollows.view, Option.bind_some, hrest]

end Run

/-- Three lines, of which the second is hidden and the third is wrapped. -/
def threeLines : ViewModelLines :=
  constructLines 1 [(none, false), (none, true), (some ⟨none, [5, 9], [0, 4], 2⟩, false)]

/-- The second line is deleted, the wrapped one no longer wraps, and a wrapped line is inserted at the start. -/
def threeCalls : List (ModelLinesCall Nat) :=
  [.linesDeleted (some 2) 2 2, .lineChanged (some 2) 2 (31, none),
    .linesInserted (some 2) 1 1 [(40, some ⟨none, [3, 6], [0, 3], 0⟩)]]

theorem follow_calls_three :
    AllInRange threeLines.validModelVersionId [10, 20, 30] threeCalls ∧
      ∃ contents' lines', follow [10, 20, 30] threeLines (viewLines [10, 20, 30] threeLines) threeCalls =
          some (contents', lines', viewLines contents' lines') ∧
        contents' = threeCalls.foldl ModelLinesCall.apply [10, 20, 30] ∧
        contents'.length = lines'.modelLineProjections.length ∧ lines'.Good := by
  have hrange : AllInRange threeLines.validModelVersionId [10, 20, 30] threeCalls := by
    simp [threeCalls, AllInRange, InRange, ModelLinesCall.apply, threeLines, constructLines]
  have hlength : [10, 20, 30].length = threeLines.modelLineProjections.length := rfl
  exact ⟨hrange, follow_calls [10, 20, 30] threeLines (.constructLines 1 _) hlength threeCalls hrange⟩

end ViewModelLines

end TongjiCode.ViewModel
