import TongjiCode.MergeEditor.Documents
import TongjiCode.MergeEditor.LineEdits

/-!
# Diffs of a text model

`removeDiffs` and `applyEditRelativeToOriginal` of `textModelDiffs.ts`, when the diffs are up to date.  A diff is known by its
two line ranges, since no two diffs have the same ones.
-/

namespace TongjiCode.MergeEditor

structure TextModelDiffs where
  baseLines : List JsString
  lines : List JsString
  diffs : List LineRangeMapping
deriving DecidableEq, Repr

namespace TextModelDiffs

def getReverseLineEdit (baseLines : List JsString) (d : LineRangeMapping) : LineRangeEdit :=
  ⟨d.outputRange, slice baseLines d.inputRange.startLineNumber d.inputRange.endLineNumberExclusive⟩

/-- A diff after `diffToRemove` is removed. -/
def shiftBack (diffToRemove d : LineRangeMapping) : LineRangeMapping :=
  if d.outputRange.isAfter diffToRemove.outputRange then
    d.addOutputLineDelta (diffToRemove.inputRange.lineCount - diffToRemove.outputRange.lineCount)
  else d

/-- The loop of `removeDiffs`, with the lines of the text model and the diffs, unless it throws. -/
def removeLoop (baseLines lines : List JsString) (diffs : List LineRangeMapping) :
    List LineRangeMapping → List JsString × Option (List LineRangeMapping)
  | [] => (lines, some diffs)
  | diffToRemove :: diffToRemoves =>
    let remaining := diffs.filter (· ≠ diffToRemove)
    if diffs.length = remaining.length then (lines, none)
    else
      let lines := pushEditOperations lines ((getReverseLineEdit baseLines diffToRemove).toEdits lines.length)
      removeLoop baseLines lines (remaining.map (shiftBack diffToRemove)) diffToRemoves

/-- `removeDiffs`, and whether it throws. -/
def removeDiffs (s : TextModelDiffs) (diffToRemoves : List LineRangeMapping) : TextModelDiffs × Bool :=
  let sorted := diffToRemoves.insertionSort fun a b => a.inputRange.startLineNumber ≤ b.inputRange.startLineNumber
  match removeLoop s.baseLines s.lines s.diffs sorted.reverse with
  | (lines, some diffs) => ({ s with lines, diffs }, false)
  | (lines, none) => ({ s with lines }, true)

/-- The mapping of an edit, before the delta is added. -/
def editMapping (edit : LineRangeEdit) : LineRangeMapping :=
  ⟨edit.range, ⟨edit.range.startLineNumber, edit.newLines.length⟩⟩

/-- The loop of `applyEditRelativeToOriginal`, with the diffs that it adds and the delta, unless it throws. -/
def applyLoop (edit : LineRangeEdit) (firstAfter : Bool) (delta : Int) :
    List LineRangeMapping → Option (List LineRangeMapping × Int)
  | [] => some (if firstAfter then [] else [(editMapping edit).addOutputLineDelta delta], delta)
  | diff :: diffs =>
    if diff.inputRange.touches edit.range then none
    else if diff.inputRange.isAfter edit.range then
      (applyLoop edit true delta diffs).map fun (newDiffs, delta') =>
        ((if firstAfter then [] else [(editMapping edit).addOutputLineDelta delta]) ++
          diff.addOutputLineDelta (edit.newLines.length - edit.range.lineCount) :: newDiffs, delta')
    else
      (applyLoop edit firstAfter
          (if firstAfter then delta else delta + (diff.outputRange.lineCount - diff.inputRange.lineCount)) diffs).map
        fun (newDiffs, delta') => (diff :: newDiffs, delta')

/-- `applyEditRelativeToOriginal`, and whether it throws. -/
def applyEditRelativeToOriginal (s : TextModelDiffs) (edit : LineRangeEdit) : TextModelDiffs × Bool :=
  match applyLoop edit false 0 s.diffs with
  | none => (s, true)
  | some (newDiffs, delta) =>
    let edits := (LineRangeEdit.mk (edit.range.delta delta) edit.newLines).toEdits s.lines.length
    ({ s with lines := pushEditOperations s.lines edits, diffs := newDiffs }, false)

inductive Operation where
  | removeDiffs (diffToRemoves : List LineRangeMapping)
  | applyEditRelativeToOriginal (edit : LineRangeEdit)
deriving DecidableEq, Repr

/-- A call, and whether it throws. -/
def perform (s : TextModelDiffs) : Operation → TextModelDiffs × Bool
  | .removeDiffs diffToRemoves => s.removeDiffs diffToRemoves
  | .applyEditRelativeToOriginal edit => s.applyEditRelativeToOriginal edit

def run (s : TextModelDiffs) (operations : List Operation) : TextModelDiffs :=
  operations.foldl (fun s operation => (s.perform operation).1) s

end TextModelDiffs

end TongjiCode.MergeEditor
