import TongjiCode.ViewModel.PrefixSumComputer

/-!
# View lines

`ViewModelLinesFromProjectedModel`: each model line is shown as some view lines or hidden, and changes of model lines are
told to the view as events about view lines.
-/

namespace TongjiCode.ViewModel

/-! ## Projections -/

structure ModelLineProjectionData where
  injectionOffsets : Option (List Nat)
  breakOffsets : List Nat
  breakOffsetsVisibleColumn : List Nat
  wrappedTextIndentLength : Nat
deriving DecidableEq

def ModelLineProjectionData.getOutputLineCount (data : ModelLineProjectionData) : Nat := data.breakOffsets.length

/-- `IModelLineProjection`. -/
inductive ModelLineProjection where
  | identity
  | hidden
  | projection (projectionData : ModelLineProjectionData) (isVisible : Bool)
deriving DecidableEq

namespace ModelLineProjection

def isVisible : ModelLineProjection → Bool
  | identity => true
  | hidden => false
  | projection _ isVisible => isVisible

def getViewLineCount : ModelLineProjection → Nat
  | identity => 1
  | hidden => 0
  | projection projectionData isVisible => if isVisible then projectionData.getOutputLineCount else 0

end ModelLineProjection

def createModelLineProjection (lineBreakData : Option ModelLineProjectionData) (isVisible : Bool) : ModelLineProjection :=
  match lineBreakData with
  | none => if isVisible then .identity else .hidden
  | some lineBreakData => .projection lineBreakData isVisible

/-! ## Events -/

structure ViewLinesDeletedEvent where
  fromLineNumber : Int
  toLineNumber : Int
deriving DecidableEq

structure ViewLinesInsertedEvent where
  fromLineNumber : Int
  toLineNumber : Int
deriving DecidableEq

structure ViewLinesChangedEvent where
  fromLineNumber : Int
  count : Int
deriving DecidableEq

/-! ## The view model -/

/-- The fields of `ViewModelLinesFromProjectedModel` that changes of model lines touch. -/
structure ViewModelLines where
  validModelVersionId : Nat
  modelLineProjections : List ModelLineProjection
  projectedModelLineLineCounts : ConstantTimePrefixSumComputer

namespace ViewModelLines

/-- `_constructLines`, from the line breaks and from whether the line is in a hidden area. -/
def constructLines (versionId : Nat) (lines : List (Option ModelLineProjectionData × Bool)) : ViewModelLines :=
  let modelLineProjections := lines.map fun line => createModelLineProjection line.1 (!line.2)
  { validModelVersionId := versionId
    modelLineProjections := modelLineProjections
    projectedModelLineLineCounts := .new (modelLineProjections.map ModelLineProjection.getViewLineCount) }

/-- `versionId` is that of a change that the lines were not constructed with. -/
def isNewer (lines : ViewModelLines) : Option Nat → Bool
  | some versionId => versionId ≠ 0 && lines.validModelVersionId < versionId
  | none => false

/-- The first view line of a model line, where the sum is read unless it is the first model line. -/
def outputFromLineNumber (lines : ViewModelLines) (fromLineNumber : Nat) : Option (Nat × ConstantTimePrefixSumComputer) :=
  if fromLineNumber = 1 then some (1, lines.projectedModelLineLineCounts)
  else (lines.projectedModelLineLineCounts.getPrefixSum (fromLineNumber - 1)).map fun read => (read.1 + 1, read.2)

def onModelLinesDeleted (lines : ViewModelLines) (versionId : Option Nat) (fromLineNumber toLineNumber : Nat) :
    Option (ViewModelLines × Option ViewLinesDeletedEvent) :=
  if !lines.isNewer versionId then some (lines, none)
  else
    (lines.outputFromLineNumber fromLineNumber).bind fun (outputFromLineNumber, counts) =>
      (counts.getPrefixSum toLineNumber).map fun (outputToLineNumber, counts) =>
        let deleteCount := toLineNumber - fromLineNumber + 1
        ({ lines with
            modelLineProjections := lines.modelLineProjections.take (fromLineNumber - 1) ++
              lines.modelLineProjections.drop (fromLineNumber - 1 + deleteCount)
            projectedModelLineLineCounts := counts.removeValues (fromLineNumber - 1) deleteCount },
          some ⟨outputFromLineNumber, outputToLineNumber⟩)

def onModelLinesInserted (lines : ViewModelLines) (versionId : Option Nat) (fromLineNumber _toLineNumber : Nat)
    (lineBreaks : List (Option ModelLineProjectionData)) : Option (ViewModelLines × Option ViewLinesInsertedEvent) :=
  if !lines.isNewer versionId then some (lines, none)
  else
    let isInHiddenArea := 2 < fromLineNumber &&
      !((lines.modelLineProjections[fromLineNumber - 2]?.map ModelLineProjection.isVisible).getD true)
    (lines.outputFromLineNumber fromLineNumber).map fun (outputFromLineNumber, counts) =>
      let insertLines := lineBreaks.map fun lineBreakData => createModelLineProjection lineBreakData !isInHiddenArea
      let insertPrefixSumValues := insertLines.map ModelLineProjection.getViewLineCount
      let totalOutputLineCount := insertPrefixSumValues.sum
      ({ lines with
          modelLineProjections := lines.modelLineProjections.take (fromLineNumber - 1) ++ insertLines ++
            lines.modelLineProjections.drop (fromLineNumber - 1)
          projectedModelLineLineCounts := counts.insertValues (fromLineNumber - 1) insertPrefixSumValues },
        some ⟨outputFromLineNumber, outputFromLineNumber + totalOutputLineCount - 1⟩)

/-- The variables of `onModelLineChanged`, with which they start out. -/
structure LineChange where
  lineMappingChanged : Bool := false
  changeFrom : Int := 0
  changeTo : Int := -1
  insertFrom : Int := 0
  insertTo : Int := -1
  deleteFrom : Int := 0
  deleteTo : Int := -1

/-- The branches of `onModelLineChanged`, where the first view line is that of the model line. -/
def lineChange (changeFrom oldOutputLineCount newOutputLineCount : Int) : LineChange :=
  if newOutputLineCount < oldOutputLineCount then
    let changeTo := changeFrom + newOutputLineCount - 1
    let deleteFrom := changeTo + 1
    let deleteTo := deleteFrom + (oldOutputLineCount - newOutputLineCount) - 1
    { changeFrom, changeTo, deleteFrom, deleteTo, lineMappingChanged := true }
  else if oldOutputLineCount < newOutputLineCount then
    let changeTo := changeFrom + oldOutputLineCount - 1
    let insertFrom := changeTo + 1
    let insertTo := insertFrom + (newOutputLineCount - oldOutputLineCount) - 1
    { changeFrom, changeTo, insertFrom, insertTo, lineMappingChanged := true }
  else { changeFrom, changeTo := changeFrom + newOutputLineCount - 1 }

def LineChange.viewLinesChangedEvent (change : LineChange) : Option ViewLinesChangedEvent :=
  if change.changeFrom ≤ change.changeTo then some ⟨change.changeFrom, change.changeTo - change.changeFrom + 1⟩ else none

def LineChange.viewLinesInsertedEvent (change : LineChange) : Option ViewLinesInsertedEvent :=
  if change.insertFrom ≤ change.insertTo then some ⟨change.insertFrom, change.insertTo⟩ else none

def LineChange.viewLinesDeletedEvent (change : LineChange) : Option ViewLinesDeletedEvent :=
  if change.deleteFrom ≤ change.deleteTo then some ⟨change.deleteFrom, change.deleteTo⟩ else none

def onModelLineChanged (lines : ViewModelLines) (versionId : Option Nat) (lineNumber : Nat)
    (lineBreakData : Option ModelLineProjectionData) : Option (ViewModelLines × LineChange) :=
  if versionId.isSome && !lines.isNewer versionId then some (lines, {})
  else
    let lineIndex := lineNumber - 1
    lines.modelLineProjections[lineIndex]?.bind fun oldLine =>
      let line := createModelLineProjection lineBreakData oldLine.isVisible
      (lines.projectedModelLineLineCounts.getPrefixSum (lineNumber - 1)).map fun (sum, counts) =>
        ({ lines with
            modelLineProjections := lines.modelLineProjections.set lineIndex line
            projectedModelLineLineCounts := counts.setValue lineIndex line.getViewLineCount },
          lineChange (sum + 1) oldLine.getViewLineCount line.getViewLineCount)

/-! ## Calls -/

end ViewModelLines

/-- The events that one call returns, in the order in which a view applies them. -/
structure ViewLinesEvents where
  changed : Option ViewLinesChangedEvent := none
  inserted : Option ViewLinesInsertedEvent := none
  deleted : Option ViewLinesDeletedEvent := none

/-- What happens to model lines, with the contents that the model has afterwards. -/
inductive ModelLinesCall (Line : Type) where
  | linesDeleted (versionId : Option Nat) (fromLineNumber toLineNumber : Nat)
  | linesInserted (versionId : Option Nat) (fromLineNumber toLineNumber : Nat)
    (inserted : List (Line × Option ModelLineProjectionData))
  | lineChanged (versionId : Option Nat) (lineNumber : Nat) (changed : Line × Option ModelLineProjectionData)

namespace ViewModelLines

variable {Line : Type}

def call (lines : ViewModelLines) : ModelLinesCall Line → Option (ViewModelLines × ViewLinesEvents)
  | .linesDeleted versionId fromLineNumber toLineNumber =>
    (lines.onModelLinesDeleted versionId fromLineNumber toLineNumber).map fun (lines, deleted) => (lines, { deleted })
  | .linesInserted versionId fromLineNumber toLineNumber inserted =>
    (lines.onModelLinesInserted versionId fromLineNumber toLineNumber (inserted.map Prod.snd)).map fun (lines, inserted) =>
      (lines, { inserted })
  | .lineChanged versionId lineNumber changed =>
    (lines.onModelLineChanged versionId lineNumber changed.2).map fun (lines, change) =>
      (lines, ⟨change.viewLinesChangedEvent, change.viewLinesInsertedEvent, change.viewLinesDeletedEvent⟩)

end ViewModelLines

def ModelLinesCall.apply {Line : Type} (contents : List Line) : ModelLinesCall Line → List Line
  | linesDeleted _ fromLineNumber toLineNumber => contents.take (fromLineNumber - 1) ++ contents.drop toLineNumber
  | linesInserted _ fromLineNumber _ inserted =>
    contents.take (fromLineNumber - 1) ++ inserted.map Prod.fst ++ contents.drop (fromLineNumber - 1)
  | lineChanged _ lineNumber changed => contents.set (lineNumber - 1) changed.1

/-! ## What a view does with the events -/

/-- A row of a view, as the part of a model line that it shows. -/
structure ViewLine (Line : Type) where
  content : Line
  projection : ModelLineProjection
  outputLineIndex : Nat
deriving DecidableEq

def viewLinesOf {Line : Type} (line : Line × ModelLineProjection) : List (ViewLine Line) :=
  (List.range line.2.getViewLineCount).map (ViewLine.mk line.1 line.2)

def viewLines {Line : Type} (contents : List Line) (lines : ViewModelLines) : List (ViewLine Line) :=
  (contents.zip lines.modelLineProjections).flatMap viewLinesOf

section Rows

variable {Row : Type} (newRows rows : List Row)

/-- The new rows take the place of as many old ones. -/
def ViewLinesChangedEvent.apply (event : ViewLinesChangedEvent) : Option (List Row) :=
  let start := (event.fromLineNumber - 1).toNat
  let count := event.count.toNat
  if event.count ≤ 0 then some rows
  else if 1 ≤ event.fromLineNumber ∧ start + count ≤ rows.length ∧ start + count ≤ newRows.length then
    some (rows.take start ++ (newRows.drop start).take count ++ rows.drop (start + count))
  else none

def ViewLinesInsertedEvent.apply (event : ViewLinesInsertedEvent) : Option (List Row) :=
  let start := (event.fromLineNumber - 1).toNat
  let count := (event.toLineNumber - event.fromLineNumber + 1).toNat
  if event.toLineNumber < event.fromLineNumber then some rows
  else if 1 ≤ event.fromLineNumber ∧ start ≤ rows.length ∧ start + count ≤ newRows.length then
    some (rows.take start ++ (newRows.drop start).take count ++ rows.drop start)
  else none

def ViewLinesDeletedEvent.apply (event : ViewLinesDeletedEvent) : Option (List Row) :=
  let start := (event.fromLineNumber - 1).toNat
  if event.toLineNumber < event.fromLineNumber then some rows
  else if 1 ≤ event.fromLineNumber ∧ event.toLineNumber ≤ rows.length then
    some (rows.take start ++ rows.drop event.toLineNumber.toNat)
  else none

/-- The events of one call, one after the other; there is no result if a line number is out of range. -/
def ViewLinesEvents.apply (events : ViewLinesEvents) : Option (List Row) :=
  ((events.changed.elim (some rows) fun event => event.apply newRows rows).bind fun rows =>
    events.inserted.elim (some rows) fun event => event.apply newRows rows).bind fun rows =>
      events.deleted.elim (some rows) fun event => event.apply rows

end Rows

end TongjiCode.ViewModel
