import TongjiCode.ViewLayout.LinesLayout

/-!
# The viewport of a layout

The queries of `linesLayout.ts` for what lies between two vertical offsets.  The whitespaces of the array are looked at
by index; an index fits in 32 bits.
-/

namespace TongjiCode.ViewLayout

/-- `IPartialViewLinesViewportData`. -/
structure PartialViewLinesViewportData where
  bigNumbersDelta : Int
  startLineNumber : Int
  endLineNumber : Int
  relativeVerticalOffset : List Int
  centeredLineNumber : Int
  completelyVisibleStartLineNumber : Int
  completelyVisibleEndLineNumber : Int
deriving DecidableEq, Repr

/-- `IViewWhitespaceViewportData`. -/
structure ViewWhitespaceViewportData where
  id : Nat
  afterLineNumber : Int
  verticalOffset : Int
  height : Int
deriving DecidableEq, Repr

namespace LinesLayout

/-! ## Lines -/

/-- `lastWhitespaceBeforeLineNumber + 1`, which is 0 for `-1`. -/
def nextWhitespaceIndex : Option Nat → Nat
  | none => 0
  | some lastWhitespaceBeforeLineNumber => lastWhitespaceBeforeLineNumber + 1

/-- `none` for `-1`. -/
def getFirstWhitespaceIndexAfterLineNumber (s : LinesLayout) (lineNumber : Int) : Option Nat :=
  let firstWhitespaceAfterLineNumber := nextWhitespaceIndex (s.findLastWhitespaceBeforeLineNumber (toInt32 lineNumber))
  if firstWhitespaceAfterLineNumber < s.arr.length then some firstWhitespaceAfterLineNumber else none

/-- The whitespaces from `whitespaceIndex` on, where `whitespaceIndex` begins for a line. -/
def whitespacesFrom (s : LinesLayout) (lineNumber : Int) : List EditorWhitespace :=
  match s.getFirstWhitespaceIndexAfterLineNumber lineNumber with
  | none => []
  | some whitespaceIndex => s.arr.drop whitespaceIndex

/-- The inner loop of `getLinesViewportData`: the whitespaces right after a line push the next one down.  The list holds
the whitespaces from `whitespaceIndex` on. -/
def pushDown (lineNumber currentVerticalOffset currentLineRelativeOffset : Int) :
    List EditorWhitespace → Int × Int × List EditorWhitespace
  | [] => (currentVerticalOffset, currentLineRelativeOffset, [])
  | whitespace :: whitespaces =>
    if toInt32 whitespace.afterLineNumber = lineNumber then
      pushDown lineNumber (currentVerticalOffset + toInt32 whitespace.height)
        (currentLineRelativeOffset + toInt32 whitespace.height) whitespaces
    else (currentVerticalOffset, currentLineRelativeOffset, whitespace :: whitespaces)

/-- What the loop over the lines comes to. -/
structure LinesInView where
  endLineNumber : Int
  linesOffsets : List Int
  centeredLineNumber : Int

/-- The centered line after a turn of the loop, `-1` before it is found.  The vertical center is half of
`verticalOffset1 + verticalOffset2`. -/
def centeredUpTo (lineHeight verticalOffset1 verticalOffset2 lineNumber currentVerticalOffset centeredLineNumber : Int) :
    Int :=
  if centeredLineNumber = -1 then
    let currentLineTop := currentVerticalOffset
    let currentLineBottom := currentVerticalOffset + lineHeight
    if (2 * currentLineTop ≤ verticalOffset1 + verticalOffset2 ∧
        verticalOffset1 + verticalOffset2 < 2 * currentLineBottom) ∨
        2 * currentLineTop > verticalOffset1 + verticalOffset2 then lineNumber
    else centeredLineNumber
  else centeredLineNumber

/-- The loop over the lines, with a turn for each line up to the last one. -/
def linesLoop (lineHeight verticalOffset1 verticalOffset2 endLineNumber : Int) :
    Nat → Int → Int → Int → List EditorWhitespace → Int → LinesInView
  | 0, _, _, _, _, centeredLineNumber => { endLineNumber, linesOffsets := [], centeredLineNumber }
  | fuel + 1, lineNumber, currentVerticalOffset, currentLineRelativeOffset, whitespaces, centeredLineNumber =>
    if lineNumber ≤ endLineNumber then
      let centeredLineNumber :=
        centeredUpTo lineHeight verticalOffset1 verticalOffset2 lineNumber currentVerticalOffset centeredLineNumber
      let (nextVerticalOffset, nextLineRelativeOffset, whitespaces) :=
        pushDown lineNumber (currentVerticalOffset + lineHeight) (currentLineRelativeOffset + lineHeight) whitespaces
      if nextVerticalOffset ≥ verticalOffset2 then
        -- we have covered the entire viewport area, time to stop
        { endLineNumber := lineNumber, linesOffsets := [currentLineRelativeOffset], centeredLineNumber }
      else
        let view := linesLoop lineHeight verticalOffset1 verticalOffset2 endLineNumber fuel (lineNumber + 1)
          nextVerticalOffset nextLineRelativeOffset whitespaces centeredLineNumber
        { view with linesOffsets := currentLineRelativeOffset :: view.linesOffsets }
    else { endLineNumber, linesOffsets := [], centeredLineNumber }

def STEP_SIZE : Int := 500000

/-- A delta that guarantees that lines are positioned at `lineHeight` increments. -/
def bigNumbersDelta (startLineNumberVerticalOffset lineHeight : Int) : Int :=
  if startLineNumberVerticalOffset ≥ STEP_SIZE then
    startLineNumberVerticalOffset / STEP_SIZE * STEP_SIZE / lineHeight * lineHeight
  else 0

def getLinesViewportData (s : LinesLayout) (verticalOffset1 verticalOffset2 : Int) :
    PartialViewLinesViewportData × LinesLayout :=
  let s := s.checkPendingChanges
  let verticalOffset1 := toInt32 verticalOffset1
  let verticalOffset2 := toInt32 verticalOffset2
  let (lineNumber, s) := s.getLineNumberAtOrAfterVerticalOffset verticalOffset1
  let startLineNumber := toInt32 lineNumber
  let (startOffset, s) := s.getVerticalOffsetForLineNumber startLineNumber
  let startLineNumberVerticalOffset := toInt32 startOffset
  let lineCount := toInt32 s.lineCount
  let whitespaces := s.whitespacesFrom startLineNumber
  let delta := bigNumbersDelta startLineNumberVerticalOffset s.lineHeight
  let view := linesLoop s.lineHeight verticalOffset1 verticalOffset2 lineCount (lineCount + 1 - startLineNumber).toNat
    startLineNumber startLineNumberVerticalOffset (startLineNumberVerticalOffset - delta) whitespaces (-1)
  let endLineNumber := view.endLineNumber
  let centeredLineNumber := if view.centeredLineNumber = -1 then endLineNumber else view.centeredLineNumber
  let (endOffset, s) := s.getVerticalOffsetForLineNumber endLineNumber
  let endLineNumberVerticalOffset := toInt32 endOffset
  let completelyVisibleStartLineNumber :=
    if startLineNumber < endLineNumber ∧ startLineNumberVerticalOffset < verticalOffset1 then startLineNumber + 1
    else startLineNumber
  let completelyVisibleEndLineNumber :=
    if completelyVisibleStartLineNumber < endLineNumber ∧
        endLineNumberVerticalOffset + s.lineHeight > verticalOffset2 then endLineNumber - 1
    else endLineNumber
  ({ bigNumbersDelta := delta, startLineNumber, endLineNumber, relativeVerticalOffset := view.linesOffsets,
     centeredLineNumber, completelyVisibleStartLineNumber, completelyVisibleEndLineNumber }, s)

/-! ## Whitespaces -/

def getAfterLineNumberForWhitespaceIndex (s : LinesLayout) (index : Nat) : Int :=
  (s.arr[index]?.map EditorWhitespace.afterLineNumber).getD 0

def getHeightForWhitespaceIndex (s : LinesLayout) (index : Nat) : Int :=
  (s.arr[index]?.map EditorWhitespace.height).getD 0

def getIdForWhitespaceIndex (s : LinesLayout) (index : Nat) : Nat := (s.arr[index]?.map EditorWhitespace.id).getD 0

def getVerticalOffsetForWhitespaceIndex (s : LinesLayout) (whitespaceIndex : Nat) : Int × LinesLayout :=
  let s := s.checkPendingChanges
  let afterLineNumber := s.getAfterLineNumberForWhitespaceIndex whitespaceIndex
  let previousLinesHeight := if afterLineNumber ≥ 1 then s.lineHeight * afterLineNumber else 0
  let (previousWhitespacesHeight, s) :=
    if whitespaceIndex > 0 then s.getWhitespacesAccumulatedHeight (whitespaceIndex - 1) else (0, s)
  (previousLinesHeight + previousWhitespacesHeight + s.paddingTop, s)

/-- The turns of the binary search of `getWhitespaceIndexAtOrAfterVerticallOffset`.  Each one takes a whitespace out of
the range. -/
def whitespaceIndexLoop (s : LinesLayout) (verticalOffset : Int) (minWhitespaceIndex maxWhitespaceIndex : Nat) :
    Nat → Nat × LinesLayout
  | 0 => (minWhitespaceIndex, s)
  | fuel + 1 =>
    if minWhitespaceIndex < maxWhitespaceIndex then
      let midWhitespaceIndex := (minWhitespaceIndex + maxWhitespaceIndex) / 2
      let (midWhitespaceVerticalOffset, s) := s.getVerticalOffsetForWhitespaceIndex midWhitespaceIndex
      let midWhitespaceHeight := s.getHeightForWhitespaceIndex midWhitespaceIndex
      if verticalOffset ≥ midWhitespaceVerticalOffset + midWhitespaceHeight then
        whitespaceIndexLoop s verticalOffset (midWhitespaceIndex + 1) maxWhitespaceIndex fuel
      else if verticalOffset ≥ midWhitespaceVerticalOffset then (midWhitespaceIndex, s)
      -- vertical offset is before whitespace, which might still be what we're searching for
      else whitespaceIndexLoop s verticalOffset minWhitespaceIndex midWhitespaceIndex fuel
    else (minWhitespaceIndex, s)

/-- `none` for `-1`. -/
def getWhitespaceIndexAtOrAfterVerticallOffset (s : LinesLayout) (verticalOffset : Int) : Option Nat × LinesLayout :=
  let s := s.checkPendingChanges
  let verticalOffset := toInt32 verticalOffset
  if s.arr.length = 0 then (none, s)
  else
    let maxWhitespaceIndex := s.arr.length - 1
    let (maxWhitespaceVerticalOffset, s) := s.getVerticalOffsetForWhitespaceIndex maxWhitespaceIndex
    let maxWhitespaceHeight := s.getHeightForWhitespaceIndex maxWhitespaceIndex
    if verticalOffset ≥ maxWhitespaceVerticalOffset + maxWhitespaceHeight then (none, s)
    else
      let (index, s) := whitespaceIndexLoop s verticalOffset 0 maxWhitespaceIndex maxWhitespaceIndex
      (some index, s)

/-- The loop of `getWhitespaceViewportData`, with a turn for each whitespace from index `i` on. -/
def whitespacesLoop (s : LinesLayout) (verticalOffset2 : Int) (i : Nat) :
    Nat → List ViewWhitespaceViewportData × LinesLayout
  | 0 => ([], s)
  | fuel + 1 =>
    let (top, s) := s.getVerticalOffsetForWhitespaceIndex i
    let height := s.getHeightForWhitespaceIndex i
    if top ≥ verticalOffset2 then ([], s)
    else
      let whitespace : ViewWhitespaceViewportData :=
        { id := s.getIdForWhitespaceIndex i, afterLineNumber := s.getAfterLineNumberForWhitespaceIndex i,
          verticalOffset := top, height }
      let (result, s) := whitespacesLoop s verticalOffset2 (i + 1) fuel
      (whitespace :: result, s)

def getWhitespaceViewportData (s : LinesLayout) (verticalOffset1 verticalOffset2 : Int) :
    List ViewWhitespaceViewportData × LinesLayout :=
  let s := s.checkPendingChanges
  let verticalOffset1 := toInt32 verticalOffset1
  let verticalOffset2 := toInt32 verticalOffset2
  let (startIndex, s) := s.getWhitespaceIndexAtOrAfterVerticallOffset verticalOffset1
  match startIndex with
  | none => ([], s)
  | some startIndex => whitespacesLoop s verticalOffset2 startIndex (s.arr.length - startIndex)

end LinesLayout

end TongjiCode.ViewLayout
