import TongjiCode.Base.Int32

/-!
# Layout of lines and whitespaces

The class `LinesLayout` of `linesLayout.ts`: lines of one height, and whitespaces (view zones) between them that push
the lines below down.  Heights and offsets are whole pixels.  The minimal widths of the whitespaces, which play no
part in the vertical layout, are left out.
-/

namespace TongjiCode.ViewLayout

/-- `EditorWhitespace`.  The id is the number that follows the id of the layout in it. -/
structure EditorWhitespace where
  id : Nat
  afterLineNumber : Int
  ordinal : Int
  height : Int
  prefixSum : Int := 0
deriving DecidableEq, Repr

/-- `IPendingChange`. -/
structure PendingChange where
  id : Nat
  newAfterLineNumber : Int
  newHeight : Int
deriving DecidableEq, Repr

structure PendingChanges where
  hasPending : Bool := false
  inserts : List EditorWhitespace := []
  changes : List PendingChange := []
  removes : List Nat := []

structure LinesLayout where
  pendingChanges : PendingChanges := {}
  lastWhitespaceId : Nat := 0
  arr : List EditorWhitespace := []
  prefixSumValidIndex : Int := -1
  lineCount : Int
  lineHeight : Int
  paddingTop : Int
  paddingBottom : Int

namespace LinesLayout

/-! ## Whitespaces -/

/-- The turns of the binary search of `findInsertionIndex`. -/
def findInsertionLoop (arr : List EditorWhitespace) (afterLineNumber ordinal : Int) (low high : Nat) : Nat :=
  if _h : low < high then
    let mid := (low + high) / 2
    match arr[mid]? with
    | none => low
    | some whitespace =>
      if afterLineNumber = whitespace.afterLineNumber then
        if ordinal < whitespace.ordinal then findInsertionLoop arr afterLineNumber ordinal low mid
        else findInsertionLoop arr afterLineNumber ordinal (mid + 1) high
      else if afterLineNumber < whitespace.afterLineNumber then
        findInsertionLoop arr afterLineNumber ordinal low mid
      else findInsertionLoop arr afterLineNumber ordinal (mid + 1) high
  else low
termination_by high - low

def findInsertionIndex (arr : List EditorWhitespace) (afterLineNumber ordinal : Int) : Nat :=
  findInsertionLoop arr afterLineNumber ordinal 0 arr.length

def insertWhitespace (s : LinesLayout) (whitespace : EditorWhitespace) : LinesLayout :=
  let insertIndex := findInsertionIndex s.arr whitespace.afterLineNumber whitespace.ordinal
  { s with
    arr := s.arr.insertIdx insertIndex whitespace
    prefixSumValidIndex := min s.prefixSumValidIndex (insertIndex - 1) }

/-- `_findWhitespaceIndex`, `none` for `-1`. -/
def findWhitespaceIndex (s : LinesLayout) (id : Nat) : Option Nat :=
  s.arr.findIdx? fun whitespace => whitespace.id = id

def removeWhitespace (s : LinesLayout) (removeIndex : Nat) : LinesLayout :=
  { s with
    arr := s.arr.eraseIdx removeIndex
    prefixSumValidIndex := min s.prefixSumValidIndex (removeIndex - 1) }

def changeHeight (s : LinesLayout) (index : Nat) (whitespace : EditorWhitespace) (newHeight : Int) : LinesLayout :=
  if whitespace.height ≠ newHeight then
    { s with
      arr := s.arr.set index { whitespace with height := newHeight }
      prefixSumValidIndex := min s.prefixSumValidIndex (index - 1) }
  else s

def changeOneWhitespace (s : LinesLayout) (id : Nat) (newAfterLineNumber newHeight : Int) : LinesLayout :=
  match s.findWhitespaceIndex id with
  | none => s
  | some index =>
    match s.arr[index]? with
    | none => s
    | some whitespace =>
      let s := s.changeHeight index whitespace newHeight
      -- changing `afterLineNumber` can trigger a reordering, so the whitespace is removed and added again
      if whitespace.afterLineNumber ≠ newAfterLineNumber then
        (s.removeWhitespace index).insertWhitespace
          { whitespace with height := newHeight, afterLineNumber := newAfterLineNumber }
      else s

/-- The change that `toChange` holds for an id: the last one that was set. -/
def changeOf (changes : List PendingChange) (id : Nat) : Option PendingChange :=
  changes.reverse.find? fun change => change.id = id

def applyRemoveAndChange (changes : List PendingChange) (removes : List Nat) (whitespaces : List EditorWhitespace) :
    List EditorWhitespace :=
  whitespaces.filterMap fun whitespace =>
    if whitespace.id ∈ removes then none
    else
      match changeOf changes whitespace.id with
      | some change =>
        some { whitespace with afterLineNumber := change.newAfterLineNumber, height := change.newHeight }
      | none => some whitespace

/-- The comparison of the sort: by line number, then by ordinal. -/
def comesBefore (a b : EditorWhitespace) : Bool :=
  if a.afterLineNumber = b.afterLineNumber then a.ordinal ≤ b.ordinal else a.afterLineNumber ≤ b.afterLineNumber

def commitPendingChanges (s : LinesLayout) (inserts : List EditorWhitespace) (changes : List PendingChange)
    (removes : List Nat) : LinesLayout :=
  if inserts.length + changes.length + removes.length ≤ 1 then
    -- when only one thing happened, handle it "delicately"
    let s := inserts.foldl insertWhitespace s
    let s := changes.foldl (fun s change => s.changeOneWhitespace change.id change.newAfterLineNumber change.newHeight) s
    removes.foldl (fun s id => match s.findWhitespaceIndex id with
      | none => s
      | some index => s.removeWhitespace index) s
  else
    -- simply rebuild the entire datastructure
    let result := applyRemoveAndChange changes removes s.arr ++ applyRemoveAndChange changes removes inserts
    { s with arr := result.mergeSort comesBefore, prefixSumValidIndex := -1 }

/-- `_pendingChanges.commit(this)`. -/
def commit (s : LinesLayout) : LinesLayout :=
  if s.pendingChanges.hasPending then
    let pending := s.pendingChanges
    { s with pendingChanges := {} }.commitPendingChanges pending.inserts pending.changes pending.removes
  else s

def checkPendingChanges (s : LinesLayout) : LinesLayout :=
  if s.pendingChanges.hasPending then s.commit else s

/-! ### The accessor of `changeWhitespace` -/

def accessorInsertWhitespace (s : LinesLayout) (afterLineNumber ordinal heightInPx : Int) : LinesLayout :=
  let id := s.lastWhitespaceId + 1
  let whitespace : EditorWhitespace :=
    { id, afterLineNumber := toInt32 afterLineNumber, ordinal := toInt32 ordinal, height := toInt32 heightInPx }
  { s with
    lastWhitespaceId := id
    pendingChanges := { s.pendingChanges with
      hasPending := true, inserts := s.pendingChanges.inserts ++ [whitespace] } }

def accessorChangeOneWhitespace (s : LinesLayout) (id : Nat) (newAfterLineNumber newHeight : Int) : LinesLayout :=
  let change : PendingChange :=
    { id, newAfterLineNumber := toInt32 newAfterLineNumber, newHeight := toInt32 newHeight }
  { s with pendingChanges := { s.pendingChanges with
      hasPending := true, changes := s.pendingChanges.changes ++ [change] } }

def accessorRemoveWhitespace (s : LinesLayout) (id : Nat) : LinesLayout :=
  { s with pendingChanges := { s.pendingChanges with
      hasPending := true, removes := s.pendingChanges.removes ++ [id] } }

/-! ## Lines -/

def setLineHeight (s : LinesLayout) (lineHeight : Int) : LinesLayout :=
  { s.checkPendingChanges with lineHeight }

def setPadding (s : LinesLayout) (paddingTop paddingBottom : Int) : LinesLayout := { s with paddingTop, paddingBottom }

def onFlushed (s : LinesLayout) (lineCount : Int) : LinesLayout := { s.checkPendingChanges with lineCount }

/-- Where a whitespace goes when lines are deleted. -/
def afterDeletion (fromLineNumber toLineNumber afterLineNumber : Int) : Int :=
  if fromLineNumber ≤ afterLineNumber ∧ afterLineNumber ≤ toLineNumber then fromLineNumber - 1
  else if afterLineNumber > toLineNumber then afterLineNumber - (toLineNumber - fromLineNumber + 1)
  else afterLineNumber

def onLinesDeleted (s : LinesLayout) (fromLineNumber toLineNumber : Int) : LinesLayout :=
  let s := s.checkPendingChanges
  let fromLineNumber := toInt32 fromLineNumber
  let toLineNumber := toInt32 toLineNumber
  { s with
    lineCount := s.lineCount - (toLineNumber - fromLineNumber + 1)
    arr := s.arr.map fun whitespace =>
      { whitespace with afterLineNumber := afterDeletion fromLineNumber toLineNumber whitespace.afterLineNumber } }

/-- Where a whitespace goes when lines are inserted. -/
def afterInsertion (fromLineNumber toLineNumber afterLineNumber : Int) : Int :=
  if fromLineNumber ≤ afterLineNumber then afterLineNumber + (toLineNumber - fromLineNumber + 1) else afterLineNumber

def onLinesInserted (s : LinesLayout) (fromLineNumber toLineNumber : Int) : LinesLayout :=
  let s := s.checkPendingChanges
  let fromLineNumber := toInt32 fromLineNumber
  let toLineNumber := toInt32 toLineNumber
  { s with
    lineCount := s.lineCount + (toLineNumber - fromLineNumber + 1)
    arr := s.arr.map fun whitespace =>
      { whitespace with afterLineNumber := afterInsertion fromLineNumber toLineNumber whitespace.afterLineNumber } }

/-! ## Queries -/

/-- `arr[i].prefixSum`. -/
def prefixSumAt (arr : List EditorWhitespace) (i : Nat) : Int := (arr[i]?.map EditorWhitespace.prefixSum).getD 0

/-- The loop of `getWhitespacesAccumulatedHeight`, `count` turns from `i` on. -/
def sumLoop (arr : List EditorWhitespace) (i : Nat) : Nat → List EditorWhitespace
  | 0 => arr
  | count + 1 =>
    sumLoop (arr.modify i fun whitespace =>
      { whitespace with prefixSum := prefixSumAt arr (i - 1) + whitespace.height }) (i + 1) count

def getWhitespacesAccumulatedHeight (s : LinesLayout) (index : Nat) : Int × LinesLayout :=
  let s := s.checkPendingChanges
  let startIndex := (max 0 (s.prefixSumValidIndex + 1)).toNat
  let arr :=
    if startIndex = 0 then
      sumLoop (s.arr.modify 0 fun whitespace => { whitespace with prefixSum := whitespace.height }) 1 index
    else sumLoop s.arr startIndex (index + 1 - startIndex)
  (prefixSumAt arr index, { s with arr, prefixSumValidIndex := max s.prefixSumValidIndex index })

def getWhitespacesTotalHeight (s : LinesLayout) : Int × LinesLayout :=
  let s := s.checkPendingChanges
  if s.arr.length = 0 then (0, s) else s.getWhitespacesAccumulatedHeight (s.arr.length - 1)

def getLinesTotalHeight (s : LinesLayout) : Int × LinesLayout :=
  let s := s.checkPendingChanges
  let linesHeight := s.lineHeight * s.lineCount
  let (whitespacesHeight, s) := s.getWhitespacesTotalHeight
  (linesHeight + whitespacesHeight + s.paddingTop + s.paddingBottom, s)

/-- The turns of the binary search of `_findLastWhitespaceBeforeLineNumber`, `high` excluded; `none` for `-1`. -/
def findLastLoop (arr : List EditorWhitespace) (lineNumber : Int) (low high : Nat) : Option Nat :=
  if _h : low < high then
    -- `high - 1` is the last index in question
    let mid := low + (high - 1 - low) / 2
    match arr[mid]? with
    | none => none
    | some whitespace =>
      if whitespace.afterLineNumber < lineNumber then
        match arr[mid + 1]? with
        | none => some mid
        | some next =>
          if next.afterLineNumber ≥ lineNumber then some mid else findLastLoop arr lineNumber (mid + 1) high
      else findLastLoop arr lineNumber low mid
  else none
termination_by high - low

def findLastWhitespaceBeforeLineNumber (s : LinesLayout) (lineNumber : Int) : Option Nat :=
  findLastLoop s.arr (toInt32 lineNumber) 0 s.arr.length

def getWhitespaceAccumulatedHeightBeforeLineNumber (s : LinesLayout) (lineNumber : Int) : Int × LinesLayout :=
  let s := s.checkPendingChanges
  match s.findLastWhitespaceBeforeLineNumber (toInt32 lineNumber) with
  | none => (0, s)
  | some index => s.getWhitespacesAccumulatedHeight index

def getVerticalOffsetForLineNumber (s : LinesLayout) (lineNumber : Int) (includeViewZones : Bool := false) :
    Int × LinesLayout :=
  let s := s.checkPendingChanges
  let lineNumber := toInt32 lineNumber
  let previousLinesHeight := if lineNumber > 1 then s.lineHeight * (lineNumber - 1) else 0
  let (previousWhitespacesHeight, s) :=
    s.getWhitespaceAccumulatedHeightBeforeLineNumber (lineNumber - (if includeViewZones then 1 else 0))
  (previousLinesHeight + previousWhitespacesHeight + s.paddingTop, s)

def getVerticalOffsetAfterLineNumber (s : LinesLayout) (lineNumber : Int) (includeViewZones : Bool := false) :
    Int × LinesLayout :=
  let s := s.checkPendingChanges
  let lineNumber := toInt32 lineNumber
  let previousLinesHeight := s.lineHeight * lineNumber
  let (previousWhitespacesHeight, s) :=
    s.getWhitespaceAccumulatedHeightBeforeLineNumber (lineNumber + (if includeViewZones then 1 else 0))
  (previousLinesHeight + previousWhitespacesHeight + s.paddingTop, s)

/-- The turns of the binary search of `getLineNumberAtOrAfterVerticalOffset`.  Each one takes a line out of the range,
so as many as there are lines are enough. -/
def lineNumberLoop (s : LinesLayout) (verticalOffset lineHeight : Int) (minLineNumber maxLineNumber : Int) :
    Nat → Int × LinesLayout
  | 0 => (minLineNumber, s)
  | fuel + 1 =>
    if minLineNumber < maxLineNumber then
      let midLineNumber := toInt32 ((minLineNumber + maxLineNumber).tdiv 2)
      let (offset, s) := s.getVerticalOffsetForLineNumber midLineNumber
      let midLineNumberVerticalOffset := toInt32 offset
      if verticalOffset ≥ midLineNumberVerticalOffset + lineHeight then
        lineNumberLoop s verticalOffset lineHeight (midLineNumber + 1) maxLineNumber fuel
      else if verticalOffset ≥ midLineNumberVerticalOffset then (midLineNumber, s)
      -- vertical offset is before mid line number, which could still be what we're searching for
      else lineNumberLoop s verticalOffset lineHeight minLineNumber midLineNumber fuel
    else (minLineNumber, s)

def getLineNumberAtOrAfterVerticalOffset (s : LinesLayout) (verticalOffset : Int) : Int × LinesLayout :=
  let s := s.checkPendingChanges
  let verticalOffset := toInt32 verticalOffset
  if verticalOffset < 0 then (1, s)
  else
    let linesCount := toInt32 s.lineCount
    let (lineNumber, s) := lineNumberLoop s verticalOffset s.lineHeight 1 linesCount linesCount.toNat
    if lineNumber > linesCount then (linesCount, s) else (lineNumber, s)

end LinesLayout

end TongjiCode.ViewLayout
